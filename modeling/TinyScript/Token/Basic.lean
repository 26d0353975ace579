import TinyScript.Text.Decimal

/-!
Tokens are pieces of text. What a token is follows from its text alone, for any text, also one
that no source can give.
-/

namespace TinyScript

/-- The control characters. Each of them ends the word before it and stands for itself. -/
inductive Symbol where
  | semicolon
  | quote
  | plus
  | minus
  | star
  | slash
  | assign
  | openParen
  | closeParen
  | openBrace
  | closeBrace
  | comma
  deriving DecidableEq

namespace Symbol

def char : Symbol → Char
  | semicolon => ';'
  | quote => '"'
  | plus => '+'
  | minus => '-'
  | star => '*'
  | slash => '/'
  | assign => '='
  | openParen => '('
  | closeParen => ')'
  | openBrace => '{'
  | closeBrace => '}'
  | comma => ','

def text : Symbol → String
  | semicolon => ";"
  | quote => "\""
  | plus => "+"
  | minus => "-"
  | star => "*"
  | slash => "/"
  | assign => "="
  | openParen => "("
  | closeParen => ")"
  | openBrace => "\x7b"
  | closeBrace => "\x7d"
  | comma => ","

def all : List Symbol :=
  [semicolon, quote, plus, minus, star, slash, assign, openParen, closeParen, openBrace,
    closeBrace, comma]

def ofChar? (c : Char) : Option Symbol :=
  all.find? (·.char = c)

def ofText? : List Char → Option Symbol
  | [c] => ofChar? c
  | _ => none

theorem toList_text (s : Symbol) : s.text.toList = [s.char] := by
  cases s <;> decide

theorem ofChar?_char (s : Symbol) : ofChar? s.char = some s := by
  cases s <;> decide

theorem ofChar?_eq_some_iff {c : Char} {s : Symbol} : ofChar? c = some s ↔ c = s.char := by
  refine ⟨fun h => ?_, fun h => h ▸ ofChar?_char s⟩
  have := List.find?_some h
  simpa using (of_decide_eq_true this).symm

theorem ofText?_eq_some_iff {text : String} {s : Symbol} :
    ofText? text.toList = some s ↔ text = s.text := by
  rw [← String.toList_inj, toList_text]
  constructor
  · intro h
    unfold ofText? at h
    split at h
    · rename_i c hc
      rw [hc, ofChar?_eq_some_iff.mp h]
    · cases h
  · intro h
    rw [h, ofText?, ofChar?_char]

end Symbol

def isControl (c : Char) : Bool :=
  (Symbol.ofChar? c).isSome

/-- Blanks separate words and are otherwise ignored: space, tab, line feed, form feed and
carriage return. -/
def isBlank (c : Char) : Bool :=
  c = ' ' || c = '\t' || c = '\n' || c = '\x0c' || c = '\r'

def isWordChar (c : Char) : Bool :=
  !isBlank c && !isControl c

/-- The two words that introduce a name. They differ in intent only: neither lets the name be
bound again. -/
inductive Declarator where
  | mutable
  | constant
  deriving DecidableEq

def Declarator.text : Declarator → String
  | mutable => "let"
  | constant => "const"

inductive Keyword where
  | declare (form : Declarator)
  | ret
  | func
  deriving DecidableEq

namespace Keyword

def text : Keyword → String
  | declare form => form.text
  | ret => "return"
  | func => "func"

def all : List Keyword :=
  [declare .mutable, declare .constant, ret, func]

def ofText? (text : String) : Option Keyword :=
  all.find? (·.text = text)

theorem ofText?_text (k : Keyword) : ofText? k.text = some k := by
  rcases k with ⟨_ | _⟩ | _ | _ <;> simp [ofText?, all, text, Declarator.text]

theorem ofText?_eq_some_iff {text : String} {k : Keyword} :
    ofText? text = some k ↔ text = k.text := by
  refine ⟨fun h => ?_, fun h => h ▸ ofText?_text k⟩
  have := List.find?_some h
  simpa using (of_decide_eq_true this).symm

end Keyword

/-- What a token can be. A quoted text carries what stands between its quotes. -/
inductive Kind where
  | quoted (content : String)
  | number
  | keyword (k : Keyword)
  | symbol (s : Symbol)
  | name
  deriving DecidableEq

structure Token where
  text : String
  deriving DecidableEq

/-- The characters between the first and the last one, if these are two quotes. -/
def unquote? : List Char → Option (List Char)
  | '"' :: rest => if rest.getLast? = some '"' then some rest.dropLast else none
  | _ => none

theorem unquote?_eq_some_iff {cs content : List Char} :
    unquote? cs = some content ↔ cs = '"' :: (content ++ ['"']) := by
  constructor
  · intro h
    unfold unquote? at h
    split at h
    · rename_i rest
      split at h
      · rename_i hl
        obtain ⟨init, rfl⟩ := List.getLast?_eq_some_iff.mp hl
        simpa using h
      · cases h
    · cases h
  · rintro rfl
    simp [unquote?]

namespace Token

/-- Quotes on both ends are looked for first, then digits, then the fixed words and symbols.
Every other text, the empty one too, is a name. -/
def kind (t : Token) : Kind :=
  let cs := t.text.toList
  match unquote? cs with
  | some content => .quoted (String.ofList content)
  | none =>
    if Decimal.isNumeral cs then .number
    else match Keyword.ofText? t.text with
      | some k => .keyword k
      | none => match Symbol.ofText? cs with
        | some s => .symbol s
        | none => .name

def is (t : Token) (s : Symbol) : Bool :=
  t.text = s.text

def isName (t : Token) : Bool :=
  t.kind = .name

theorem is_iff {t : Token} {s : Symbol} : t.is s = true ↔ t.text = s.text := by
  simp [is]

theorem kind_symbol (s : Symbol) : kind ⟨s.text⟩ = .symbol s := by
  have hq : unquote? [s.char] = none := by cases s <;> decide
  have hn : Decimal.isNumeral [s.char] = false := by cases s <;> decide
  have hk : Keyword.ofText? s.text = none := by
    cases s <;> simp [Keyword.ofText?, Keyword.all, Keyword.text, Declarator.text, Symbol.text]
  have hs : Symbol.ofText? [s.char] = some s := Symbol.ofChar?_char s
  simp [kind, Symbol.toList_text, hq, hn, hk, hs]

/-- No text of another kind can pass for a symbol. -/
theorem kind_eq_symbol_iff {t : Token} {s : Symbol} : t.kind = .symbol s ↔ t.is s = true := by
  rw [is_iff]
  constructor
  · intro h
    unfold kind at h
    dsimp only at h
    split at h
    · cases h
    · split at h
      · cases h
      · split at h
        · cases h
        · split at h
          · rename_i hs
            cases h
            exact Symbol.ofText?_eq_some_iff.mp hs
          · cases h
  · intro h
    obtain ⟨text⟩ := t
    cases h
    exact kind_symbol s

end Token

end TinyScript
