import TinyScript.Parse.Expr
import TinyScript.Proofs.Joins
import TinyScript.Proofs.Quotes

/-!
What the kind of a token says about how it was read. A token does not carry its kind; the kind is told
by the text. For the tokens of a source it tells whether the token was read as a quoted text, as a
control character or as a word.
-/

namespace TinyScript

/-- What stands behind the blanks before the cursor starts with a quote, so it is read up to the next
one. -/
def Cursor.AtQuote (c : Cursor) : Prop :=
  c.skipBlanks.rest.head? = some '"'

theorem Cursor.atQuote_iff_of_pull {c next : Cursor} {t : Token}
    (h : c.pull = (some (.ok t), next)) : c.AtQuote ↔ t.text.toList.head? = some '"' := by
  obtain ⟨_, _, _, ht, _⟩ := lexeme_of_pull h
  obtain ⟨first, cs, hf, _⟩ := ht.head
  rw [AtQuote, rest_skipBlanks_of_pull h, hf]
  rfl

theorem Symbol.text_eq_singleton (s : Symbol) : s.text = String.singleton s.char := by
  rw [← String.toList_inj, toList_text, String.toList_singleton]

theorem Symbol.mem_chars_iff {c : Char} :
    c ∈ [';', '+', '-', '*', '/', '=', '(', ')', '{', '}', ','] ↔
      ∃ s : Symbol, s ≠ .quote ∧ s.char = c := by
  have hall : ∀ s, s ∈ Symbol.all := by
    intro s
    cases s <;> decide
  have hchars : [';', '+', '-', '*', '/', '=', '(', ')', '{', '}', ','] =
      (Symbol.all.filter (· ≠ .quote)).map Symbol.char := by
    decide
  rw [hchars]
  simp [hall]

/-- An operator is told by its character, whatever else the token could be. -/
theorem Operator.isSome_ofToken?_iff {t : Token} :
    (Operator.ofToken? t).isSome = true ↔ ∃ c ∈ ['+', '-', '*', '/'], t.text = String.singleton c := by
  rw [Option.isSome_iff_exists]
  simp only [Operator.ofToken?_eq_some_iff, Operator.text, Symbol.text_eq_singleton]
  constructor
  · rintro ⟨op, h⟩
    exact ⟨op.symbol.char, by cases op <;> decide, h⟩
  · rintro ⟨c, hc, h⟩
    simp only [List.mem_cons, List.not_mem_nil, or_false] at hc
    rcases hc with rfl | rfl | rfl | rfl
    · exact ⟨.add, h⟩
    · exact ⟨.subtract, h⟩
    · exact ⟨.multiply, h⟩
    · exact ⟨.divide, h⟩

theorem Symbol.head?_text_ne_quote {s : Symbol} (h : s ≠ .quote) :
    s.text.toList.head? ≠ some '"' := by
  rw [toList_text]
  exact fun hhead => char_ne_quote h (Option.some.inj hhead)

namespace Token

variable {t : Token}

theorem not_isWord_of_quote (h : '"' ∈ t.text.toList) : ¬ t.IsWord :=
  fun hw => ne_quote_of_isWordChar (hw.2 _ h) rfl

theorem head?_quoted {content : String} (h : t.kind = .quoted content) :
    t.text.toList.head? = some '"' := by
  rw [kind_eq_quoted_iff.mp h, String.toList_append, String.toList_append]
  rfl

/-- A word is neither a quoted text nor a symbol. -/
theorem IsWord.kind_cases (h : t.IsWord) :
    t.kind = .number ∨ (∃ k, t.kind = .keyword k) ∨ t.kind = .name := by
  cases hk : t.kind with
  | number => exact .inl rfl
  | keyword k => exact .inr (.inl ⟨k, rfl⟩)
  | name => exact .inr (.inr rfl)
  | quoted content =>
    exact absurd h (not_isWord_of_quote (List.mem_of_mem_head? (head?_quoted hk)))
  | symbol s =>
    rw [eq_token (kind_eq_symbol_iff.mp hk)] at h
    exact absurd h (not_isWord_symbol s)

namespace Lexeme

/-- Only quoted texts start with a quote: the symbol of a single quote is no lexeme. -/
theorem quoted_iff (h : t.Lexeme) :
    (∃ content, t.kind = .quoted content) ↔ t.text.toList.head? = some '"' := by
  refine ⟨fun ⟨_, hk⟩ => head?_quoted hk, fun hhead => ?_⟩
  cases h with
  | symbol hs => exact absurd hhead (Symbol.head?_text_ne_quote hs)
  | @quoted content hq =>
    refine ⟨String.ofList content, kind_eq_quoted_iff.mpr ?_⟩
    rw [← String.toList_inj]
    simp
  | word hw => exact absurd hw (not_isWord_of_quote (List.mem_of_mem_head? hhead))

theorem quote_not_mem (h : t.Lexeme) {content : String} (hk : t.kind = .quoted content) :
    '"' ∉ content.toList := by
  have htext := kind_eq_quoted_iff.mp hk
  cases h with
  | symbol hs => exact absurd (head?_quoted hk) (Symbol.head?_text_ne_quote hs)
  | @quoted chars hq =>
    have hchars : chars = content.toList := by
      rw [← String.toList_inj] at htext
      simpa using htext
    rwa [← hchars]
  | word hw => exact absurd hw (not_isWord_of_quote (List.mem_of_mem_head? (head?_quoted hk)))

theorem symbol_iff (h : t.Lexeme) :
    (∃ s, t.kind = .symbol s) ↔ ∃ s : Symbol, s ≠ .quote ∧ t.text = String.singleton s.char := by
  constructor
  · rintro ⟨s, hk⟩
    have htext := is_iff.mp (kind_eq_symbol_iff.mp hk)
    refine ⟨s, ?_, htext.trans s.text_eq_singleton⟩
    rintro rfl
    -- a single quote would start a quoted text, and that is no symbol
    obtain ⟨content, hq⟩ := h.quoted_iff.mpr (by rw [htext, Symbol.toList_text]; rfl)
    rw [hk] at hq
    cases hq
  · rintro ⟨s, _, htext⟩
    exact ⟨s, kind_eq_symbol_iff.mpr (is_iff.mpr (htext.trans s.text_eq_singleton.symm))⟩

/-- What is left is a word. -/
theorem isWord (h : t.Lexeme) (hq : t.text.toList.head? ≠ some '"') (hs : ∀ s, t.kind ≠ .symbol s) :
    t.IsWord := by
  cases h with
  | @symbol s _ => exact absurd (kind_symbol s) (hs s)
  | quoted _ => exact absurd (by simp) hq
  | word hw => exact hw

theorem isWord_of_name (h : t.Lexeme) (hk : t.kind = .name) : t.IsWord := by
  refine h.isWord (fun hhead => ?_) fun s hs => by rw [hk] at hs; cases hs
  obtain ⟨content, hq⟩ := h.quoted_iff.mpr hhead
  rw [hk] at hq
  cases hq

end Lexeme

end Token

/-- The kind of a token tells how it was read. It is a quoted text if the cursor was at a quote, and then
no quote is in its content; it is a symbol if it is one of the control characters but the quote, and an
operator if it is one of the four; else it is a word. No token is empty or a quote alone, and no name has
a blank or control character in it. -/
theorem kind_of_pulled {source : String} {n : Nat} {t : Token}
    (h : (Cursor.ofText source).nth? n = some (.ok t)) :
    ((∃ content, t.kind = .quoted content) ↔ ((Cursor.ofText source).pulled n).AtQuote) ∧
    (∀ content, t.kind = .quoted content →
      parseValue t = .ok (.text content) ∧ '"' ∉ content.toList) ∧
    ((∃ s, t.kind = .symbol s) ↔
      ∃ c ∈ [';', '+', '-', '*', '/', '=', '(', ')', '{', '}', ','], t.text = String.singleton c) ∧
    ((Operator.ofToken? t).isSome = true ↔
      ∃ c ∈ ['+', '-', '*', '/'], t.text = String.singleton c) ∧
    (¬ ((Cursor.ofText source).pulled n).AtQuote → (∀ s, t.kind ≠ .symbol s) →
      t.IsWord ∧ (t.kind = .number ∨ (∃ k, t.kind = .keyword k) ∨ t.kind = .name)) ∧
    t.kind ≠ .symbol .quote ∧ t.text ≠ "" ∧
    (t.kind = .name → ∀ c ∈ t.text.toList, isBlank c = false ∧ isControl c = false) := by
  have hpull : ((Cursor.ofText source).pulled n).pull = (some (.ok t), _) := Prod.ext h rfl
  obtain ⟨_, _, _, ht, _⟩ := Cursor.lexeme_of_pull hpull
  have hquote := Cursor.atQuote_iff_of_pull hpull
  refine ⟨?_, ?_, ?_, Operator.isSome_ofToken?_iff, ?_, ?_, ?_, ?_⟩
  · rw [ht.quoted_iff, hquote]
  · intro content hk
    refine ⟨?_, ht.quote_not_mem hk⟩
    rw [parseValue, hk]
  · rw [ht.symbol_iff]
    simp only [Symbol.mem_chars_iff]
    constructor
    · rintro ⟨s, hs, htext⟩
      exact ⟨s.char, ⟨s, hs, rfl⟩, htext⟩
    · rintro ⟨c, ⟨s, hs, rfl⟩, htext⟩
      exact ⟨s, hs, htext⟩
  · intro hq hs
    have hw : t.IsWord := ht.isWord (fun hhead => hq (hquote.mpr hhead)) hs
    exact ⟨hw, hw.kind_cases⟩
  · intro hk
    obtain ⟨s, hs, htext⟩ := ht.symbol_iff.mp ⟨_, hk⟩
    have hsame := Token.is_iff.mp (Token.kind_eq_symbol_iff.mp hk)
    rw [htext, ← s.text_eq_singleton] at hsame
    exact hs (Symbol.text_injective hsame)
  · intro hempty
    obtain ⟨c, cs, hc, _⟩ := ht.head
    rw [hempty] at hc
    cases hc
  · intro hk c hc
    have hword := (ht.isWord_of_name hk).2 c hc
    exact ⟨isBlank_of_isWordChar hword, isControl_of_isWordChar hword⟩

/-- A quoted text with a comma and a blank in it, behind a word and before a symbol. -/
theorem kind_of_pulled_between :
    (Cursor.ofText "é\"a, b\"+1").nth? 1 = some (.ok ⟨"\"a, b\""⟩) ∧
    (∃ content, Token.kind ⟨"\"a, b\""⟩ = .quoted content) ∧
    (Cursor.ofText "é\"a, b\"+1").nth? 2 = some (.ok ⟨"+"⟩) ∧
    (∃ s, Token.kind ⟨"+"⟩ = .symbol s) ∧ (Operator.ofToken? ⟨"+"⟩).isSome = true := by
  have hquoted : (Cursor.ofText "é\"a, b\"+1").nth? 1 = some (.ok ⟨"\"a, b\""⟩) := by rfl
  have hplus : (Cursor.ofText "é\"a, b\"+1").nth? 2 = some (.ok ⟨"+"⟩) := by rfl
  have hread := kind_of_pulled hplus
  exact ⟨hquoted, (kind_of_pulled hquoted).1.mpr rfl, hplus,
    hread.2.2.1.mpr ⟨'+', by decide, rfl⟩, hread.2.2.2.1.mpr ⟨'+', by decide, rfl⟩⟩

end TinyScript
