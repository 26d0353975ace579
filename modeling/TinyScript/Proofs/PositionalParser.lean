import TinyScript.Proofs.Grammar
import TinyScript.Proofs.Positions

/-!
The parser by positions. It reads the same tokens with a cursor, with positions of brackets and with
slices between them, and the content of a quoted text with byte offsets. It never takes a step that
goes wrong and never reads without end: for every list of tokens, whatever their texts, it gives
what `parse` gives.
-/

namespace TinyScript

/-- The text between two byte offsets. There is none if one of them is out of range or inside a
character, or if they are in the wrong order. -/
def textBetween? (text : String) (start stop : Nat) : Option String :=
  if h : String.Pos.Raw.IsValid text ⟨start⟩ ∧ String.Pos.Raw.IsValid text ⟨stop⟩ ∧ start ≤ stop then
    some (String.extract (text.pos ⟨start⟩ h.1) (text.pos ⟨stop⟩ h.2.1))
  else none

namespace Positional

def parseValue (t : Token) : Checked Expr := do
  match t.kind with
  | .quoted _ =>
    let last ← oneLess? t.text.utf8ByteSize
    return .text (← textBetween? t.text 1 last)
  | .number => return .number t.text
  | .name => return .variable t.text
  | _ => throw (.unexpectedToken t.text)

/-- A call, of which `read` reads the arguments. The tokens start with the parenthesis that opens
these. -/
def parseCall (read : List Token → Checked Expr) (callee : Token) (ts : List Token) :
    Checked (Expr × List Token) := do
  match ← findClosing .paren ts 0 with
  | none => throw (.unclosedArguments callee.text)
  | some close =>
    let pieces ← splitArguments (← slice? ts 1 close)
    let arguments ← pieces.mapM read
    return (.call callee.text arguments, ← slice? ts (close + 1) ts.length)

def parseOperand (read : List Token → Checked Expr) :
    List Token → Checked (Expr × List Token)
  | [] => throw (.unexpectedEnd .expression)
  | t :: rest =>
    if t.isName && rest.head?.any (·.is .openParen) then parseCall read t rest
    else do return (← parseValue t, rest)

/-- Reading an expression goes wrong as well if it takes more than `limit` levels. -/
def parseExprWithin : Nat → List Token → Checked Expr
  | 0, _ => liftM (none : Option Expr)
  | limit + 1, ts => do
    let (left, rest) ← parseOperand (parseExprWithin limit) ts
    match rest with
    | [] => return left
    | t :: right =>
      match Operator.ofToken? t with
      | none => throw (.notAnOperator t.text)
      | some op => return .binary op left (← parseExprWithin limit right)

def parseExpr (ts : List Token) : Checked Expr :=
  parseExprWithin (ts.length + 1) ts

def parseDeclaration (form : Declarator) (ts : List Token) : Checked Node := do
  let name ← parseName .variableName ts[0]?
  match ts[1]? with
  | none => throw (.missingAssign none)
  | some t =>
    if t.is .assign then return .declare form name (← parseExpr (← slice? ts 2 ts.length))
    else throw (.missingAssign (some t.text))

/-- The token has to be there and to be the symbol. -/
def expectToken (s : Symbol) (part : Part) : Option Token → Except ParseError Unit
  | none => .error (.unexpectedEnd part)
  | some t => if t.is s then .ok () else .error (.unexpectedToken t.text)

/-- The parameters of a function, and the position behind them. -/
def parseParameters (ts : List Token) : Checked (List String × Nat) := do
  expectToken .openParen .parameterList ts[1]?
  match ← findClosing .paren ts 1 with
  | none => throw (.unexpectedEnd .parameterList)
  | some close =>
    let pieces ← splitArguments (← slice? ts 2 close)
    let parameters ← liftM (pieces.mapM parseParameter)
    return (parameters, close + 1)

/-- The tokens of the block that starts at a position, with nothing behind it. -/
def parseBlock (name : String) (ts : List Token) (start : Nat) : Checked (List Token) := do
  expectToken .openBrace .functionBody ts[start]?
  match ← findClosing .brace ts start with
  | none => throw (.unclosedBlock name)
  | some close =>
    match ts[close + 1]? with
    | some extra => throw (.unexpectedToken extra.text)
    | none => slice? ts (start + 1) close

def parseHeader (ts : List Token) : Checked Header := do
  let name ← parseName .functionName ts[0]?
  let (parameters, start) ← parseParameters ts
  let body ← parseBlock name ts start
  return ⟨name, parameters, body⟩

/-- A unit; if it is a function, `read` reads its body. -/
def parseUnit (read : List Token → Checked Program) : List Token → Checked Node
  | [] => throw (.unexpectedEnd .statement)
  | first :: rest =>
    match first.kind with
    | .keyword (.declare form) => parseDeclaration form rest
    | .keyword .ret => do return .ret (← parseExpr rest)
    | .keyword .func => do
      let header ← parseHeader rest
      let body ← read header.body
      return .expr (.function ⟨header.name, header.parameters, body⟩)
    | _ => do return .expr (← parseExpr (first :: rest))

/-- The units from a position on. Reading them goes wrong as well if it takes more than `limit`
steps, each of which passes a unit or enters a body. -/
def parseFromWithin : Nat → List Token → Nat → Checked Program
  | 0, _, _ => liftM (none : Option Program)
  | limit + 1, ts, position => do
    match ← nextUnit ts position with
    | none => return []
    | some (unit, next) =>
      if unit.isEmpty then parseFromWithin limit ts next
      else
        let node ← parseUnit (parseFromWithin limit · 0) unit
        return node :: (← parseFromWithin limit ts next)

def parse (ts : List Token) : Checked Program :=
  parseFromWithin (ts.length + 1) ts 0

end Positional

theorem textBetween?_append (before middle after : String) :
    textBetween? (before ++ middle ++ after) before.utf8ByteSize
      (before.utf8ByteSize + middle.utf8ByteSize) = some middle := by
  have hs : String.Pos.Raw.IsValid (before ++ middle ++ after) ⟨before.utf8ByteSize⟩ :=
    String.Pos.Raw.isValid_iff_exists_append.mpr
      ⟨before, middle ++ after, String.append_assoc, rfl⟩
  have hp : String.Pos.Raw.IsValid (before ++ middle ++ after)
      ⟨before.utf8ByteSize + middle.utf8ByteSize⟩ :=
    String.Pos.Raw.isValid_iff_exists_append.mpr
      ⟨before ++ middle, after, rfl, by rw [← String.utf8ByteSize_append]; rfl⟩
  have hbytes : (before.toByteArray ++ (middle.toByteArray ++ after.toByteArray)).extract
      (before.utf8ByteSize + 0) (before.utf8ByteSize + middle.utf8ByteSize) =
        middle.toByteArray := by
    rw [ByteArray.extract_append_size_add' String.size_toByteArray.symm,
      ByteArray.extract_append_eq_left String.size_toByteArray.symm]
  rw [textBetween?, dif_pos ⟨hs, hp, Nat.le_add_right _ _⟩]
  congr 1
  apply String.toByteArray_inj.mp
  rw [String.toByteArray_extract, String.toByteArray_append, String.toByteArray_append,
    ByteArray.append_assoc]
  exact hbytes

/-- An offset inside a character is no place to cut. -/
example : textBetween? "\"é" 2 3 = none := by
  decide

namespace Positional

/-- Between the quotes of a quoted text is a slice of it, and that is its content. -/
theorem parseValue_eq (t : Token) : parseValue t = .sure (TinyScript.parseValue t) := by
  unfold parseValue TinyScript.parseValue
  cases hk : t.kind with
  | quoted content =>
    have htext := Token.kind_eq_quoted_iff.mp hk
    have hsize : t.text.utf8ByteSize = 1 + content.utf8ByteSize + 1 := by
      rw [htext, String.utf8ByteSize_append, String.utf8ByteSize_append]
      rfl
    have hslice : textBetween? t.text 1 (1 + content.utf8ByteSize) = some content := by
      rw [htext]
      exact textBetween?_append "\"" content "\""
    simp only [hsize, oneLess?, Checked.lift_some_bind, hslice, Checked.pure_eq_sure]
  | number => rfl
  | keyword k => rfl
  | symbol s => rfl
  | name => rfl

section Calls

variable {read : List Token → Checked Expr} {callee t : Token} {inner : List Token}
variable (ht : t.is Bracket.paren.opening = true)
include ht

theorem parseCall_of_none (hc : Bracket.paren.split? 0 inner = none) :
    parseCall read callee (t :: inner) = .sure (.error (.unclosedArguments callee.text)) := by
  have hdrop : (t :: inner).drop 0 = t :: inner := rfl
  rw [parseCall, findClosing_eq hdrop ht, hc]
  rfl

theorem parseCall_of_some {inside after : List Token}
    (hc : Bracket.paren.split? 0 inner = some (inside, after))
    (hr : ∀ us, us.length < inner.length → read us = .sure (TinyScript.parseExpr us)) :
    parseCall read callee (t :: inner) =
      .sure (((TinyScript.splitArguments inside).mapM TinyScript.parseExpr).map
        fun arguments => (.call callee.text arguments, after)) := by
  have hdrop : (t :: inner).drop 0 = t :: inner := rfl
  obtain ⟨hfound, hinside, hafter, _⟩ := closes_of_split? hdrop ht hc
  have hlen := Bracket.length_split? hc
  have hargs : ∀ piece ∈ TinyScript.splitArguments inside,
      read piece = .sure (TinyScript.parseExpr piece) := by
    intro piece hp
    have := length_splitArguments hp
    apply hr
    omega
  rw [parseCall, hfound]
  simp only [Checked.lift_some_bind, hinside, splitArguments_eq, Checked.mapM_sure hargs, hafter]
  cases (TinyScript.splitArguments inside).mapM TinyScript.parseExpr <;> rfl

end Calls

theorem parseOperand_eq {read : List Token → Checked Expr} {ts : List Token}
    (hr : ∀ us, us.length < ts.length → read us = .sure (TinyScript.parseExpr us)) :
    parseOperand read ts = .sure ((splitOperand ts).bind fun split =>
      (split.1.pieces.mapM TinyScript.parseExpr).map fun arguments =>
        (split.1.build arguments, split.2)) := by
  cases ts with
  | nil => rfl
  | cons t rest =>
    have hvalue : (do return (← parseValue t, rest) : Checked (Expr × List Token)) =
        .sure (((TinyScript.parseValue t).map fun e => (Operand.value e, rest)).bind fun split =>
          (split.1.pieces.mapM TinyScript.parseExpr).map fun arguments =>
            (split.1.build arguments, split.2)) := by
      rw [parseValue_eq]
      cases TinyScript.parseValue t <;> rfl
    rw [parseOperand, splitOperand]
    by_cases hcall : (t.isName && rest.head?.any (·.is .openParen)) = true
    · obtain ⟨hname, hopen⟩ := Bool.and_eq_true_iff.mp hcall
      cases rest with
      | nil => cases hopen
      | cons p inner =>
        have hp : p.is .openParen = true := hopen
        rw [if_pos hcall, if_pos hname, behind?, if_pos hp]
        dsimp only
        cases hc : Bracket.paren.split? 0 inner with
        | none => exact parseCall_of_none hp hc
        | some cut =>
          obtain ⟨inside, after⟩ := cut
          refine parseCall_of_some hp hc fun us hu => hr us ?_
          simp only [List.length_cons]
          omega
    · have hnone : (if t.isName then behind? .openParen rest else none) = none := by
        cases hname : t.isName with
        | false => rfl
        | true =>
          cases rest with
          | nil => rfl
          | cons p inner =>
            have hp : ¬ p.is .openParen = true := by simpa [hname] using hcall
            rw [if_pos rfl, behind?, if_neg hp]
      rw [if_neg hcall, hnone]
      exact hvalue

/-- No expression has more levels than tokens: the arguments of a call and the right side of an
operator are shorter than the whole. -/
theorem parseExprWithin_eq {limit : Nat} {ts : List Token} (hl : ts.length < limit) :
    parseExprWithin limit ts = .sure (TinyScript.parseExpr ts) := by
  induction limit generalizing ts with
  | zero => cases hl
  | succ limit ih =>
    have hread : ∀ us, us.length < ts.length →
        parseExprWithin limit us = .sure (TinyScript.parseExpr us) := by
      intro us hu
      apply ih
      omega
    rw [parseExprWithin, parseOperand_eq hread, TinyScript.parseExpr_eq]
    cases hs : splitOperand ts with
    | error e => rfl
    | ok split =>
      obtain ⟨operand, rest⟩ := split
      have hrest := length_splitOperand hs
      simp only [Except.bind]
      cases operand.pieces.mapM TinyScript.parseExpr with
      | error e => rfl
      | ok arguments =>
        cases rest with
        | nil => rfl
        | cons t right =>
          have hright : parseExprWithin limit right = .sure (TinyScript.parseExpr right) := by
            apply hread
            rw [List.length_cons] at hrest
            omega
          simp only [Except.map, Checked.sure_ok_bind, parseBehind]
          cases Operator.ofToken? t with
          | none => rfl
          | some op =>
            simp only [hright]
            cases TinyScript.parseExpr right <;> rfl

theorem parseExpr_eq (ts : List Token) : parseExpr ts = .sure (TinyScript.parseExpr ts) :=
  parseExprWithin_eq (Nat.lt_succ_self ts.length)

theorem parseDeclaration_eq (form : Declarator) (ts : List Token) :
    parseDeclaration form ts = .sure (TinyScript.parseDeclaration form ts) := by
  unfold parseDeclaration TinyScript.parseDeclaration
  cases ts with
  | nil => rfl
  | cons n rest =>
    simp only [List.getElem?_cons_zero, List.head?_cons, List.tail_cons]
    cases parseName .variableName (some n) with
    | error e => rfl
    | ok name =>
      cases rest with
      | nil => rfl
      | cons t rest =>
        cases ht : t.is .assign with
        | false =>
          simp only [List.getElem?_cons_succ, List.getElem?_cons_zero, ht, Bool.false_eq_true,
            ↓reduceIte, behind?]
          rfl
        | true =>
          have hts : n :: t :: rest = [n, t] ++ (rest ++ []) := by simp
          have hs : slice? (n :: t :: rest) 2 (n :: t :: rest).length = some rest :=
            slice?_append hts rfl (by simp only [List.length_cons, List.length_nil]; omega)
          simp only [List.getElem?_cons_succ, List.getElem?_cons_zero, ht, ↓reduceIte, behind?, hs,
            Checked.lift_some_bind, parseExpr_eq]
          cases TinyScript.parseExpr rest <;> rfl

theorem expectToken_eq (s : Symbol) (part : Part) (ts : List Token) (position : Nat) :
    expectToken s part ts[position]? = (expect s part (ts.drop position)).map fun _ => () := by
  rw [← List.head?_drop]
  cases ts.drop position with
  | nil => rfl
  | cons t rest =>
    rw [List.head?_cons, expectToken, expect]
    split <;> rfl

/-- The position behind the parameters is where what is left of the tokens starts. -/
theorem exists_parseParameters_eq (n : Token) (rest : List Token) :
    ∃ start, parseParameters (n :: rest) =
        .sure ((Header.parameterList rest).map fun list => (list.1, start)) ∧
      ∀ list, Header.parameterList rest = .ok list → (n :: rest).drop start = list.2 := by
  have hdrop : (n :: rest).drop 1 = rest := rfl
  unfold parseParameters Header.parameterList
  rw [expectToken_eq, hdrop]
  cases he : expect .openParen .parameterList rest with
  | error e => exact ⟨0, rfl, fun list h => nomatch h⟩
  | ok inner =>
    have ht : Symbol.openParen.token.is Bracket.paren.opening = true := rfl
    rw [expect_eq_ok he] at hdrop ⊢
    rw [Checked.except_ok_bind]
    cases hc : Bracket.paren.split? 0 inner with
    | none =>
      rw [findClosing_eq hdrop ht, hc]
      exact ⟨0, rfl, fun list h => nomatch h⟩
    | some cut =>
      obtain ⟨inside, after⟩ := cut
      obtain ⟨hfound, hinside, _, hafter⟩ := closes_of_split? hdrop ht hc
      refine ⟨1 + 1 + inside.length + 1, ?_, fun list h => ?_⟩
      · simp only [hfound, Checked.lift_some_bind, hinside, splitArguments_eq]
        cases (TinyScript.splitArguments inside).mapM parseParameter <;> rfl
      · obtain ⟨parameters, _, h⟩ := except_bind_eq_ok h
        cases h
        exact hafter

theorem parseBlock_eq (name : String) {ts rest : List Token} {start : Nat}
    (hdrop : ts.drop start = rest) : parseBlock name ts start = .sure (Header.block name rest) := by
  unfold parseBlock Header.block
  rw [expectToken_eq, hdrop]
  cases he : expect .openBrace .functionBody rest with
  | error e => rfl
  | ok inner =>
    have ht : Symbol.openBrace.token.is Bracket.brace.opening = true := rfl
    rw [expect_eq_ok he] at hdrop
    rw [Checked.except_ok_bind]
    cases hc : Bracket.brace.split? 0 inner with
    | none =>
      rw [findClosing_eq hdrop ht, hc]
      rfl
    | some cut =>
      obtain ⟨body, extra⟩ := cut
      obtain ⟨hfound, hbody, _, hextra⟩ := closes_of_split? hdrop ht hc
      simp only [hfound, Checked.lift_some_bind, ← List.head?_drop, hextra, hbody]
      cases extra <;> rfl

theorem parseHeader_eq (ts : List Token) : parseHeader ts = .sure (Header.parse ts) := by
  rw [Header.parse_eq]
  unfold parseHeader
  cases ts with
  | nil => rfl
  | cons n rest =>
    obtain ⟨start, hparameters, hstart⟩ := exists_parseParameters_eq n rest
    rw [hparameters, List.getElem?_cons_zero, List.head?_cons, List.tail_cons]
    cases parseName .functionName (some n) with
    | error e => rfl
    | ok name =>
      simp only [Except.bind]
      cases hl : Header.parameterList rest with
      | error e => rfl
      | ok list =>
        simp only [Except.map, Checked.lift_eq_sure, Checked.sure_ok_bind,
          parseBlock_eq name (hstart list hl)]
        cases Header.block name list.2 <;> rfl

theorem parseExpr_map (f : Expr → Node) (ts : List Token) :
    (do return f (← parseExpr ts)) =
      Checked.sure (do return f (← TinyScript.parseExpr ts)) := by
  rw [parseExpr_eq]
  cases TinyScript.parseExpr ts <;> rfl

theorem parseUnit_eq {read : List Token → Checked Program} {unit : List Token}
    (hr : ∀ us, us.length < unit.length → read us = .sure (TinyScript.parse us)) :
    parseUnit read unit = .sure (TinyScript.parseUnit unit) := by
  cases unit with
  | nil => rfl
  | cons first rest =>
    rw [parseUnit, TinyScript.parseUnit, parseSimple]
    cases hk : first.kind with
    | keyword k =>
      cases k with
      | declare form => exact parseDeclaration_eq form rest
      | ret => exact parseExpr_map .ret rest
      | func =>
        rw [if_pos rfl]
        simp only [parseHeader_eq]
        cases hh : Header.parse rest with
        | error e => rfl
        | ok header =>
          have hbody : read header.body = .sure (TinyScript.parse header.body) := by
            have := Header.length_body hh
            apply hr
            rw [List.length_cons]
            omega
          simp only [Checked.sure_ok_bind, hbody, Checked.except_ok_bind]
          cases TinyScript.parse header.body <;> rfl
    | quoted content => exact parseExpr_map .expr (first :: rest)
    | number => exact parseExpr_map .expr (first :: rest)
    | symbol s => exact parseExpr_map .expr (first :: rest)
    | name => exact parseExpr_map .expr (first :: rest)

/-- From a position on, what is read is the program of the tokens that are left. There are enough
steps: a unit leaves fewer tokens behind it, and the body of a function is shorter than its unit. -/
theorem parseFromWithin_eq {limit : Nat} {ts rest : List Token} {position : Nat}
    (hd : ts.drop position = rest) (hl : rest.length < limit) :
    parseFromWithin limit ts position = .sure (TinyScript.parse rest) := by
  induction limit generalizing ts rest position with
  | zero => cases hl
  | succ limit ih =>
    rw [parseFromWithin]
    cases rest with
    | nil =>
      rw [nextUnit_of_drop_nil hd, TinyScript.parse_nil]
      rfl
    | cons t rest =>
      rw [nextUnit_of_drop_cons hd, TinyScript.parse_cons]
      cases hc : cutUnit t 0 (t :: rest) with
      | error e => rfl
      | ok cut =>
        obtain ⟨unit, after⟩ := cut
        obtain ⟨hunit, hshort⟩ := length_cutUnit hc
        have hshort := hshort (List.cons_ne_nil t rest)
        have hafter : parseFromWithin limit ts (ts.length - after.length) =
            .sure (TinyScript.parse after) := by
          apply ih (drop_of_cutUnit (hd ▸ hc))
          omega
        have hnode : parseUnit (parseFromWithin limit · 0) unit =
            .sure (TinyScript.parseUnit unit) := by
          apply parseUnit_eq
          intro us hu
          apply ih List.drop_zero
          omega
        simp only [Except.map, Except.bind, Checked.sure_ok_bind, hafter, hnode, List.isEmpty_iff]
        by_cases he : unit = []
        · rw [if_pos he, if_pos he]
        · rw [if_neg he, if_neg he]
          cases TinyScript.parseUnit unit with
          | error e => rfl
          | ok node => cases TinyScript.parse after <;> rfl

theorem parse_eq (ts : List Token) : parse ts = .sure (TinyScript.parse ts) :=
  parseFromWithin_eq List.drop_zero (Nat.lt_succ_self ts.length)

end Positional

/-- Reading by positions never goes wrong. Every count can be taken down where it is, every slice is
in range and in order, the content of a quoted text starts and ends between characters, and the limits
are never reached; what comes out is the program, expression or error that `parse`, `parseExpr` and
`parseValue` give. -/
theorem parse_by_positions :
    (∀ ts, (Positional.parse ts).run = some (parse ts)) ∧
      (∀ ts, (Positional.parseExpr ts).run = some (parseExpr ts)) ∧
        ∀ t, (Positional.parseValue t).run = some (parseValue t) := by
  refine ⟨fun ts => ?_, fun ts => ?_, fun t => ?_⟩
  · rw [Positional.parse_eq]
    rfl
  · rw [Positional.parseExpr_eq]
    rfl
  · rw [Positional.parseValue_eq]
    rfl

end TinyScript
