import TinyScript.Token.Basic

/-!
Reading tokens off a text. A cursor stands in front of what is left of a text and knows how many
bytes lie behind it. Each pull skips blanks and takes one lexeme, so the cursor moves on with
every item it yields.
-/

namespace TinyScript

/-- A quote without a partner, by its distance in bytes from the start of the text. -/
inductive LexError where
  | unclosedQuote (offset : Nat)
  deriving DecidableEq

def LexError.message : LexError → String
  | unclosedQuote offset =>
    "unterminated string literal starting at byte " ++ Decimal.ofNat offset

/-- The number of bytes that characters take in UTF-8. -/
def byteLength : List Char → Nat
  | [] => 0
  | c :: cs => c.utf8Size + byteLength cs

/-- The lexeme that starts with `first` when `rest` follows: a quoted text with both its quotes, a
single control character, or as many word characters as there are. There is none if `first` is
a quote that is never closed. -/
def lexeme? (first : Char) (rest : List Char) : Option (List Char) :=
  if first = '"' then
    match rest.dropWhile (· ≠ '"') with
    | [] => none
    | _ :: _ => some ('"' :: (rest.takeWhile (· ≠ '"') ++ ['"']))
  else if isControl first then some [first]
  else some (first :: rest.takeWhile isWordChar)

structure Cursor where
  rest : List Char
  position : Nat

namespace Cursor

def ofText (text : String) : Cursor :=
  ⟨text.toList, 0⟩

/-- Moves behind the next `n` characters. -/
def advance (c : Cursor) (n : Nat) : Cursor :=
  ⟨c.rest.drop n, c.position + byteLength (c.rest.take n)⟩

def skipBlanks (c : Cursor) : Cursor :=
  c.advance (c.rest.takeWhile isBlank).length

/-- The next token, or nothing at the end of the text. An unclosed quote uses up all that is
left. -/
def pull (c : Cursor) : Option (Except LexError Token) × Cursor :=
  let start := c.skipBlanks
  match start.rest with
  | [] => (none, start)
  | first :: rest =>
    match lexeme? first rest with
    | some chars => (some (.ok ⟨String.ofList chars⟩), start.advance chars.length)
    | none => (some (.error (.unclosedQuote start.position)), start.advance start.rest.length)

theorem length_advance (c : Cursor) (n : Nat) :
    (c.advance n).rest.length = c.rest.length - n := by
  simp [advance]

theorem length_lexeme?_pos {first : Char} {rest chars : List Char}
    (h : lexeme? first rest = some chars) : 0 < chars.length := by
  unfold lexeme? at h
  split at h
  · split at h
    · cases h
    · cases h; simp
  · split at h <;> cases h <;> simp

/-- Every item takes at least one character. -/
theorem length_pull_lt {c next : Cursor} {item : Except LexError Token}
    (h : c.pull = (some item, next)) : next.rest.length < c.rest.length := by
  have hs : c.skipBlanks.rest.length ≤ c.rest.length := by
    simp [skipBlanks, length_advance]
  unfold pull at h
  dsimp only at h
  split at h
  · cases h
  · rename_i first rest he
    have hl : 0 < c.skipBlanks.rest.length := by simp [he]
    split at h
    · rename_i chars hx
      cases h
      have := length_lexeme?_pos hx
      rw [length_advance]
      omega
    · cases h
      rw [length_advance]
      omega

/-- All items up to the end of the text, and the cursor at that end. -/
def items (c : Cursor) : List (Except LexError Token) × Cursor :=
  match _h : c.pull with
  | (none, last) => ([], last)
  | (some item, next) =>
    let (more, last) := next.items
    (item :: more, last)
termination_by c.rest.length
decreasing_by exact length_pull_lt _h

end Cursor

/-- The tokens of a text, or its first error. -/
def tokenize (text : String) : Except LexError (List Token) :=
  (Cursor.ofText text).items.1.mapM id

end TinyScript
