import TinyScript.Token.Cursor
import Mathlib.Data.List.TakeWhile

/-!
Lexemes and where they are found. A cursor that pulls a token has passed over blanks and then over
exactly one lexeme, and it pulls whatever lexeme stands behind blanks.
-/

namespace TinyScript

def Blank (cs : List Char) : Prop :=
  ∀ c ∈ cs, isBlank c = true

def Token.IsWord (t : Token) : Prop :=
  t.text.toList ≠ [] ∧ ∀ c ∈ t.text.toList, isWordChar c = true

/-- What can stand between blanks: a symbol, a quoted text, or a word. -/
inductive Token.Lexeme : Token → Prop where
  | symbol {s : Symbol} (h : s ≠ .quote) : Lexeme ⟨s.text⟩
  | quoted {content : List Char} (h : '"' ∉ content) :
      Lexeme ⟨String.ofList ('"' :: (content ++ ['"']))⟩
  | word {t : Token} (h : t.IsWord) : Lexeme t

/-- No character is both at once. -/
theorem isWordChar_of_isBlank {c : Char} (h : isBlank c = true) : isWordChar c = false := by
  simp [isWordChar, h]

theorem isWordChar_symbol (s : Symbol) : isWordChar s.char = false := by
  cases s <;> decide

theorem isWordChar_quote : isWordChar '"' = false :=
  isWordChar_symbol .quote

theorem Symbol.char_ne_quote {s : Symbol} (h : s ≠ .quote) : s.char ≠ '"' := by
  intro he
  have hs := Symbol.ofChar?_char s
  rw [he] at hs
  exact h (Option.some.inj (hs.symm.trans (Symbol.ofChar?_char .quote)))

theorem isBlank_symbol (s : Symbol) : isBlank s.char = false := by
  cases s <;> decide

theorem isBlank_of_isWordChar {c : Char} (h : isWordChar c = true) : isBlank c = false := by
  cases hb : isBlank c with
  | false => rfl
  | true =>
    rw [isWordChar_of_isBlank hb] at h
    cases h

theorem ne_quote_of_isWordChar {c : Char} (h : isWordChar c = true) : c ≠ '"' := by
  rintro rfl
  rw [isWordChar_quote] at h
  cases h

theorem isControl_of_isWordChar {c : Char} (h : isWordChar c = true) : isControl c = false := by
  simpa using (Bool.and_eq_true_iff.mp h).2

namespace Token.Lexeme

variable {t : Token}

/-- The first character of a lexeme is no blank and tells whether it is a word. -/
theorem head (h : t.Lexeme) :
    ∃ c cs, t.text.toList = c :: cs ∧ isBlank c = false ∧ (isWordChar c = true ↔ t.IsWord) := by
  cases h with
  | @symbol s hs =>
    refine ⟨s.char, [], Symbol.toList_text s, isBlank_symbol s, ?_⟩
    simp [IsWord, Symbol.toList_text]
  | @quoted content hq =>
    refine ⟨'"', content ++ ['"'], String.toList_ofList, isBlank_symbol .quote, ?_⟩
    simp [IsWord, String.toList_ofList, isWordChar_quote]
  | word hw =>
    obtain ⟨c, cs, hc⟩ := List.exists_cons_of_ne_nil hw.1
    have hword := hw.2 c (by simp [hc])
    exact ⟨c, cs, hc, isBlank_of_isWordChar hword, by simp [hword, hw]⟩

/-- The last character tells the same. -/
theorem getLast (h : t.Lexeme) :
    ∃ cs c, t.text.toList = cs ++ [c] ∧ (isWordChar c = true ↔ t.IsWord) := by
  cases h with
  | @symbol s hs =>
    refine ⟨[], s.char, Symbol.toList_text s, ?_⟩
    simp [IsWord, Symbol.toList_text, isWordChar_symbol]
  | @quoted content hq =>
    refine ⟨'"' :: content, '"', String.toList_ofList, ?_⟩
    simp [IsWord, String.toList_ofList, isWordChar_quote]
  | word hw =>
    obtain ⟨cs, c, hc⟩ := (List.eq_nil_or_concat _).resolve_left hw.1
    have hword := hw.2 c (by simp [hc])
    exact ⟨cs, c, by simpa using hc, by simp [hword, hw]⟩

end Token.Lexeme

/-- A word does not go on in what follows. -/
def WordStops (after : List Char) : Prop :=
  ∀ c ∈ after.head?, isWordChar c = false

/-- A lexeme is found where it starts, if it is not a part of a longer word. -/
theorem lexeme?_of_lexeme {t : Token} (ht : t.Lexeme) {c : Char} {cs after : List Char}
    (hc : t.text.toList = c :: cs) (hw : t.IsWord → WordStops after) :
    lexeme? c (cs ++ after) = some (c :: cs) := by
  cases ht with
  | @symbol s hs =>
    rw [Symbol.toList_text] at hc
    cases hc
    have hq := Symbol.char_ne_quote hs
    have hcontrol : isControl s.char = true := by simp [isControl, Symbol.ofChar?_char]
    simp [lexeme?, hq, hcontrol]
  | @quoted content hq =>
    rw [String.toList_ofList] at hc
    cases hc
    have hall : ∀ c ∈ content, (decide (c ≠ '"')) = true := by
      intro c hm
      exact decide_eq_true fun he => hq (he ▸ hm)
    rw [lexeme?, if_pos rfl, List.append_assoc, List.dropWhile_append_of_pos hall,
      List.takeWhile_append_of_pos hall]
    simp
  | word hword =>
    have hfirst : isWordChar c = true := hword.2 c (by simp [hc])
    have hall : ∀ c ∈ cs, isWordChar c = true := fun c hm => hword.2 c (by simp [hc, hm])
    have hstop : after.takeWhile isWordChar = [] := by
      cases after with
      | nil => rfl
      | cons a after => simp [hw hword a rfl]
    rw [lexeme?, if_neg (ne_quote_of_isWordChar hfirst),
      if_neg (by simp [isControl_of_isWordChar hfirst]), List.takeWhile_append_of_pos hall, hstop,
      List.append_nil]

theorem quoted_of_lexeme? {rest chars : List Char} (h : lexeme? '"' rest = some chars) :
    ∃ content after, '"' ∉ content ∧ chars = '"' :: (content ++ ['"']) ∧
      rest = content ++ '"' :: after := by
  rw [lexeme?, if_pos rfl] at h
  split at h
  · cases h
  · rename_i c after hd
    cases h
    have hc : c = '"' := by
      have hh := List.head?_dropWhile_not (fun c => decide (c ≠ '"')) rest
      rw [hd] at hh
      simpa using hh
    have hcontent : '"' ∉ rest.takeWhile (· ≠ '"') := by
      intro hm
      have hp := List.mem_takeWhile_imp hm
      simp at hp
    refine ⟨_, after, hcontent, rfl, ?_⟩
    subst hc
    rw [← hd]
    exact List.takeWhile_append_dropWhile.symm

/-- What is found is a lexeme, and all of it. -/
theorem lexeme?_eq_some {first : Char} {rest chars : List Char} (hb : isBlank first = false)
    (h : lexeme? first rest = some chars) :
    ∃ after, first :: rest = chars ++ after ∧ Token.Lexeme ⟨String.ofList chars⟩ ∧
      (Token.IsWord ⟨String.ofList chars⟩ → WordStops after) := by
  by_cases hq : first = '"'
  · subst hq
    obtain ⟨content, after, hcontent, rfl, rfl⟩ := quoted_of_lexeme? h
    refine ⟨after, by simp, .quoted hcontent, ?_⟩
    intro hword
    have hfirst := hword.2 '"' (by simp [String.toList_ofList])
    exact absurd hfirst (by simp [isWordChar_quote])
  · rw [lexeme?, if_neg hq] at h
    split at h
    · rename_i hcontrol
      cases h
      obtain ⟨s, hs⟩ := Option.isSome_iff_exists.mp hcontrol
      have hf := Symbol.ofChar?_eq_some_iff.mp hs
      subst hf
      have hne : s ≠ .quote := by
        rintro rfl
        exact hq rfl
      have ht : String.ofList [s.char] = s.text := by
        rw [← Symbol.toList_text, String.ofList_toList]
      refine ⟨rest, rfl, by rw [ht]; exact .symbol hne, ?_⟩
      intro hword
      have hfirst := hword.2 s.char (by simp)
      rw [isWordChar_symbol] at hfirst
      cases hfirst
    · rename_i hcontrol
      cases h
      have hfirst : isWordChar first = true := by simp [isWordChar, hb, hcontrol]
      refine ⟨rest.dropWhile isWordChar, ?_, .word ⟨by simp, ?_⟩, ?_⟩
      · rw [List.cons_append, List.takeWhile_append_dropWhile]
      · intro c hc
        rw [String.toList_ofList] at hc
        rcases List.mem_cons.mp hc with rfl | hc
        · exact hfirst
        · exact List.mem_takeWhile_imp hc
      · intro _ c hc
        have hh := List.head?_dropWhile_not isWordChar rest
        rw [Option.mem_def.mp hc] at hh
        simpa using hh

namespace Cursor

theorem rest_skipBlanks (c : Cursor) : c.skipBlanks.rest = c.rest.dropWhile isBlank := by
  have hsplit := List.takeWhile_append_dropWhile (p := isBlank) (l := c.rest)
  calc c.skipBlanks.rest
      = (c.rest.takeWhile isBlank ++ c.rest.dropWhile isBlank).drop
          (c.rest.takeWhile isBlank).length := by rw [hsplit]; rfl
    _ = c.rest.dropWhile isBlank := List.drop_left

theorem isBlank_head_skipBlanks {c : Cursor} {first : Char} {rest : List Char}
    (h : c.skipBlanks.rest = first :: rest) : isBlank first = false := by
  have hh := List.head?_dropWhile_not isBlank c.rest
  rw [← rest_skipBlanks, h] at hh
  simpa using hh

/-- Nothing is pulled from blanks alone. -/
theorem pull_of_blank {c : Cursor} (h : Blank c.rest) : c.pull = (none, c.skipBlanks) := by
  have hs : c.skipBlanks.rest = [] := by
    rw [rest_skipBlanks]
    exact List.dropWhile_eq_nil_iff.mpr h
  rw [pull]
  simp only [hs]

/-- The lexeme behind blanks is pulled, and the cursor stops behind it. -/
theorem pull_of_lexeme {c : Cursor} {blanks after : List Char} {t : Token} (hb : Blank blanks)
    (ht : t.Lexeme) (hw : t.IsWord → WordStops after)
    (hc : c.rest = blanks ++ (t.text.toList ++ after)) :
    ∃ next, c.pull = (some (.ok t), next) ∧ next.rest = after := by
  obtain ⟨first, cs, hf, hfb, _⟩ := ht.head
  have hs : c.skipBlanks.rest = first :: (cs ++ after) := by
    rw [rest_skipBlanks, hc, List.dropWhile_append_of_pos hb, hf, List.cons_append,
      List.dropWhile_cons_of_neg (by simp [hfb])]
  have htext : (⟨String.ofList (first :: cs)⟩ : Token) = t := by
    rw [← hf, String.ofList_toList]
  refine ⟨c.skipBlanks.advance (first :: cs).length, ?_, ?_⟩
  · rw [pull]
    simp only [hs, lexeme?_of_lexeme ht hf hw, htext]
  · simp [advance, hs]

/-- A cursor that yields nothing has only blanks before it. -/
theorem blank_of_pull {c next : Cursor} (h : c.pull = (none, next)) : Blank c.rest := by
  rw [pull] at h
  split at h
  · rename_i hs
    rw [rest_skipBlanks] at hs
    exact List.dropWhile_eq_nil_iff.mp hs
  · split at h <;> cases h

/-- A token that is pulled is a whole lexeme, and only blanks are passed over before it. -/
theorem lexeme_of_pull {c next : Cursor} {t : Token} (h : c.pull = (some (.ok t), next)) :
    ∃ blanks, Blank blanks ∧ c.rest = blanks ++ (t.text.toList ++ next.rest) ∧ t.Lexeme ∧
      (t.IsWord → WordStops next.rest) := by
  rw [pull] at h
  split at h
  · cases h
  · rename_i first rest hs
    split at h
    · rename_i chars hx
      cases h
      obtain ⟨after, he, hlex, hw⟩ := lexeme?_eq_some (isBlank_head_skipBlanks hs) hx
      have hn : (c.skipBlanks.advance chars.length).rest = after := by
        simp [advance, hs, he]
      refine ⟨c.rest.takeWhile isBlank, fun _ => List.mem_takeWhile_imp, ?_, hlex, ?_⟩
      · rw [hn, String.toList_ofList, ← he, ← hs, rest_skipBlanks,
          List.takeWhile_append_dropWhile]
      · rwa [hn]
    · cases h

/-- The characters of a token are taken from where the blanks end. -/
theorem rest_skipBlanks_of_pull {c next : Cursor} {t : Token}
    (h : c.pull = (some (.ok t), next)) : c.skipBlanks.rest = t.text.toList ++ next.rest := by
  obtain ⟨blanks, hb, hc, ht, _⟩ := lexeme_of_pull h
  obtain ⟨first, cs, hf, hfb, _⟩ := ht.head
  rw [rest_skipBlanks, hc, List.dropWhile_append_of_pos hb, hf, List.cons_append,
    List.dropWhile_cons_of_neg (by simp [hfb])]

theorem items_of_none {c last : Cursor} (h : c.pull = (none, last)) : c.items = ([], last) := by
  rw [items]
  split
  · rename_i h'
    rw [h] at h'
    cases h'
    rfl
  · rename_i h'
    rw [h] at h'
    cases h'

theorem items_of_some {c next : Cursor} {item : Except LexError Token}
    (h : c.pull = (some item, next)) : c.items = (item :: next.items.1, next.items.2) := by
  rw [items]
  split
  · rename_i h'
    rw [h] at h'
    cases h'
  · rename_i h'
    rw [h] at h'
    cases h'
    rfl

/-- Pulled again and again, the cursor gives these tokens and then none. -/
def Yields : Cursor → List Token → Prop
  | c, [] => c.pull.1 = none
  | c, t :: ts => c.pull.1 = some (.ok t) ∧ c.pull.2.Yields ts

theorem items_eq_map_iff {c : Cursor} {ts : List Token} :
    c.items.1 = ts.map .ok ↔ c.Yields ts := by
  induction ts generalizing c with
  | nil =>
    cases hp : c.pull with
    | mk item next =>
      cases item with
      | none => simp [items_of_none hp, Yields, hp]
      | some item => simp [items_of_some hp, Yields, hp]
  | cons t ts ih =>
    cases hp : c.pull with
    | mk item next =>
      cases item with
      | none => simp [items_of_none hp, Yields, hp]
      | some item => simp [items_of_some hp, Yields, hp, ih]

end Cursor

end TinyScript
