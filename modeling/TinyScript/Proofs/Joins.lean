import TinyScript.Proofs.Kinds
import TinyScript.Proofs.Segmentation

/-!
Texts side by side. Two texts that are read each for itself are read the same way in a row, unless
a word of the one goes on in the other.
-/

namespace TinyScript

namespace Segmentation

/-- More blanks at the start. -/
def indent (blanks : List Char) : Segmentation → Segmentation
  | last lead => last (blanks ++ lead)
  | item lead t rest => item (blanks ++ lead) t rest

/-- One text behind another. The blanks that meet become one gap. -/
def append : Segmentation → Segmentation → Segmentation
  | last blanks, s => s.indent blanks
  | item blanks t rest, s => item blanks t (rest.append s)

@[simp]
theorem text_indent (blanks : List Char) (s : Segmentation) :
    (s.indent blanks).text = blanks ++ s.text := by
  cases s <;> simp [indent, text]

@[simp]
theorem tokens_indent (blanks : List Char) (s : Segmentation) :
    (s.indent blanks).tokens = s.tokens := by
  cases s <;> rfl

@[simp]
theorem text_append (s s' : Segmentation) : (s.append s').text = s.text ++ s'.text := by
  induction s with
  | last blanks => simp [append, text]
  | item blanks t rest ih => simp [append, text, ih]

@[simp]
theorem tokens_append (s s' : Segmentation) : (s.append s').tokens = s.tokens ++ s'.tokens := by
  induction s with
  | last blanks => simp [append, tokens]
  | item blanks t rest ih => simp [append, tokens, ih]

theorem Valid.indent {blanks : List Char} {s : Segmentation} (h : s.Valid)
    (hb : Blank blanks) : (s.indent blanks).Valid := by
  have join : ∀ {lead : List Char}, Blank lead → Blank (blanks ++ lead) := by
    intro lead hl c hc
    rcases List.mem_append.mp hc with hc | hc
    · exact hb c hc
    · exact hl c hc
  cases s with
  | last lead => exact join h
  | item lead t rest => exact ⟨join h.1, h.2⟩

@[simp]
theorem lead_indent (blanks : List Char) (s : Segmentation) :
    (s.indent blanks).lead = blanks ++ s.lead := by
  cases s <;> rfl

/-- Two texts can be joined if no two words meet. -/
theorem Valid.append {s s' : Segmentation} (h : s.Valid) (h' : s'.Valid)
    (hseam : ∀ t ∈ s.tokens.getLast?, ∀ next ∈ s'.tokens.head?, t.IsWord → next.IsWord →
      s'.lead ≠ []) : (s.append s').Valid := by
  induction s with
  | last blanks => exact h'.indent h
  | item blanks t rest ih =>
    have hrest : (rest.append s').Valid := by
      apply ih h.2.2.2
      intro t' ht'
      apply hseam
      rw [tokens, List.getLast?_cons, Option.mem_def.mp ht']
      rfl
    refine ⟨h.1, h.2.1, ?_, hrest⟩
    intro next hn ht hw
    cases rest with
    | last lead =>
      -- the seam comes right behind `t`
      rw [Segmentation.append, tokens_indent] at hn
      rw [Segmentation.append, lead_indent]
      simp [hseam t rfl next hn ht hw]
    | item lead t' rest => exact h.2.2.1 next hn ht hw

end Segmentation

theorem not_isWord_symbol (s : Symbol) : ¬ s.token.IsWord := by
  intro h
  have hc := h.2 s.char (by simp [Symbol.token, Symbol.toList_text])
  rw [isWordChar_symbol] at hc
  cases hc

/-- A source is read piece by piece, unless a word goes on from one piece to the next. -/
theorem tokenize_append {a b : String} {as bs : List Token} (ha : tokenize a = .ok as)
    (hb : tokenize b = .ok bs)
    (hseam : ∀ t ∈ as.getLast?, ∀ next ∈ bs.head?, t.IsWord → ¬ next.IsWord) :
    tokenize (a ++ b) = .ok (as ++ bs) := by
  obtain ⟨s, hs, rfl, hta⟩ := segmentation_of_tokenize ha
  obtain ⟨s', hs', rfl, htb⟩ := segmentation_of_tokenize hb
  have ht : (s.append s').text = (a ++ b).toList := by
    rw [Segmentation.text_append, hta, htb, String.toList_append]
  have hv : (s.append s').Valid :=
    hs.append hs' fun t ht next hn hw hw' => absurd hw' (hseam t ht next hn hw)
  rw [hv.tokenize ht, Segmentation.tokens_append]

/-- A blank keeps any two texts apart. -/
theorem tokenize_spaced {a b : String} {as bs : List Token} (ha : tokenize a = .ok as)
    (hb : tokenize b = .ok bs) : tokenize (a ++ " " ++ b) = .ok (as ++ bs) := by
  obtain ⟨s, hs, rfl, hta⟩ := segmentation_of_tokenize ha
  obtain ⟨s', hs', rfl, htb⟩ := segmentation_of_tokenize hb
  have hi : (s'.indent [' ']).Valid := hs'.indent (by simp [Blank, isBlank])
  have hv : (s.append (s'.indent [' '])).Valid := hs.append hi (by simp)
  have ht : (s.append (s'.indent [' '])).text = (a ++ " " ++ b).toList := by
    simp [hta, htb]
  rw [hv.tokenize ht, Segmentation.tokens_append, Segmentation.tokens_indent]

/-- Nothing goes on behind a symbol. -/
theorem tokenize_behind_symbol {a b : String} {as bs : List Token} {s : Symbol}
    (ha : tokenize a = .ok (as ++ [s.token])) (hb : tokenize b = .ok bs) :
    tokenize (a ++ b) = .ok (as ++ s.token :: bs) := by
  have h : tokenize (a ++ b) = .ok (as ++ [s.token] ++ bs) := by
    apply tokenize_append ha hb
    intro t ht _ _ hw
    rw [List.getLast?_concat, Option.mem_some_iff] at ht
    exact absurd (ht ▸ hw) (not_isWord_symbol s)
  rw [h, List.append_assoc, List.singleton_append]

/-- A symbol is no part of what comes before it. -/
theorem tokenize_before_symbol {a b : String} {as bs : List Token} {s : Symbol}
    (ha : tokenize a = .ok as) (hb : tokenize b = .ok (s.token :: bs)) :
    tokenize (a ++ b) = .ok (as ++ s.token :: bs) := by
  apply tokenize_append ha hb
  intro _ _ next hn _ hw
  rw [List.head?_cons, Option.mem_some_iff] at hn
  exact not_isWord_symbol s (hn ▸ hw)

/-- A lexeme is read as itself where it stands alone. -/
theorem tokenize_text {t : Token} (h : t.Lexeme) : tokenize t.text = .ok [t] := by
  have hv : (Segmentation.item [] t (.last [])).Valid :=
    ⟨by simp [Blank], h, by simp [Segmentation.tokens], by simp [Segmentation.Valid, Blank]⟩
  exact hv.tokenize (by simp [Segmentation.text])

theorem tokenize_symbol {s : Symbol} (h : s ≠ .quote) : tokenize s.text = .ok [s.token] :=
  tokenize_text (.symbol h)

theorem tokenize_keyword (k : Keyword) : tokenize k.text = .ok [k.token] := by
  rcases k with ⟨_ | _⟩ | _ | _ <;> exact tokenize_eq_ok_iff.mpr ⟨rfl, rfl⟩

end TinyScript
