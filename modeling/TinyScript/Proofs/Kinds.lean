import TinyScript.Token.Basic

/-!
Which texts are of which kind. Each kind but that of names is told by its texts alone, so a token
of a known kind is known in full.
-/

namespace TinyScript

/-- The token that is a symbol and nothing else. -/
def Symbol.token (s : Symbol) : Token :=
  ⟨s.text⟩

theorem Symbol.text_injective {s s' : Symbol} (h : s.text = s'.text) : s = s' := by
  have hc : [s.char] = [s'.char] := by
    rw [← Symbol.toList_text, ← Symbol.toList_text, h]
  have ho : some s = some s' := by
    rw [← Symbol.ofChar?_char s, ← Symbol.ofChar?_char s', List.head_eq_of_cons_eq hc]
  exact Option.some.inj ho

@[simp]
theorem Symbol.token_is (s s' : Symbol) : s.token.is s' = decide (s = s') := by
  by_cases h : s = s'
  · subst h
    simp [Symbol.token, Token.is]
  · have hne : s.text ≠ s'.text := fun he => h (Symbol.text_injective he)
    simp [Symbol.token, Token.is, h, hne]

theorem Token.eq_token {t : Token} {s : Symbol} (h : t.is s = true) : t = s.token := by
  obtain ⟨text⟩ := t
  exact congrArg Token.mk (Token.is_iff.mp h)

/-- A token of another kind passes for no symbol. -/
theorem Token.is_eq_false {t : Token} (h : ∀ s, t.kind ≠ .symbol s) (s : Symbol) :
    t.is s = false := by
  cases hs : t.is s with
  | false => rfl
  | true => exact absurd (Token.kind_eq_symbol_iff.mpr hs) (h s)

/-- The token that is a keyword. -/
def Keyword.token (k : Keyword) : Token :=
  ⟨k.text⟩

namespace Token

variable {t : Token}

/-- Quotes on both ends are looked for before anything else. -/
theorem kind_eq_quoted_iff {content : String} :
    t.kind = .quoted content ↔ t.text = "\"" ++ content ++ "\"" := by
  have hq : "\"".toList = ['"'] := rfl
  have ht : t.text = "\"" ++ content ++ "\"" ↔ unquote? t.text.toList = some content.toList := by
    rw [unquote?_eq_some_iff, ← String.toList_inj, String.toList_append, String.toList_append, hq]
    simp
  rw [ht]
  unfold kind
  dsimp only
  split
  · rename_i found hf
    rw [hf, Kind.quoted.injEq, Option.some.injEq, ← String.toList_inj, String.toList_ofList]
  · rename_i hf
    rw [hf]
    constructor
    · intro h
      split at h
      · cases h
      · split at h
        · cases h
        · split at h <;> cases h
    · intro h
      cases h

/-- Digits do not start with a quote. -/
theorem unquote?_of_isNumeral {cs : List Char} (h : Decimal.isNumeral cs = true) :
    unquote? cs = none := by
  cases hu : unquote? cs with
  | none => rfl
  | some content =>
    rw [unquote?_eq_some_iff] at hu
    have hd := (Decimal.isNumeral_iff.mp h).2 '"' (by simp [hu])
    exact absurd hd (by decide)

theorem kind_eq_number_iff : t.kind = .number ↔ Decimal.isNumeral t.text.toList = true := by
  constructor
  · intro h
    unfold kind at h
    dsimp only at h
    split at h
    · cases h
    · split at h
      · assumption
      · split at h
        · cases h
        · split at h <;> cases h
  · intro h
    simp [kind, unquote?_of_isNumeral h, h]

theorem kind_eq_keyword_iff {k : Keyword} : t.kind = .keyword k ↔ t = k.token := by
  constructor
  · intro h
    unfold kind at h
    dsimp only at h
    split at h
    · cases h
    · split at h
      · cases h
      · split at h
        · rename_i hk
          cases h
          obtain ⟨text⟩ := t
          exact congrArg Token.mk (Keyword.ofText?_eq_some_iff.mp hk)
        · split at h <;> cases h
  · rintro rfl
    have hu : unquote? k.text.toList = none := by
      rcases k with ⟨_ | _⟩ | _ | _ <;> decide
    have hn : Decimal.isNumeral k.text.toList = false := by
      rcases k with ⟨_ | _⟩ | _ | _ <;> decide
    simp [kind, Keyword.token, hu, hn, Keyword.ofText?_text]

theorem isName_iff : t.isName = true ↔ t.kind = .name := by
  simp [isName]

end Token

theorem Symbol.token_kind (s : Symbol) : s.token.kind = .symbol s :=
  Token.kind_symbol s

theorem Keyword.token_kind (k : Keyword) : k.token.kind = .keyword k :=
  Token.kind_eq_keyword_iff.mpr rfl

end TinyScript
