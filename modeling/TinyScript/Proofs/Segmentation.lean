import TinyScript.Proofs.Lexemes

/-!
Texts as tokens with blanks between them. A text can be taken apart in one way only, and that is
how it is read: what is read is there, what is there is read, and only blanks are left out.
-/

namespace TinyScript

/-- Blanks and tokens in turn, with blanks at both ends. Any of the blanks may be missing. -/
inductive Segmentation where
  | last (blanks : List Char)
  | item (blanks : List Char) (t : Token) (rest : Segmentation)

namespace Segmentation

/-- All that was written, in order. -/
def text : Segmentation → List Char
  | last blanks => blanks
  | item blanks t rest => blanks ++ (t.text.toList ++ rest.text)

def tokens : Segmentation → List Token
  | last _ => []
  | item _ t rest => t :: rest.tokens

/-- The blanks at the start. -/
def lead : Segmentation → List Char
  | last blanks => blanks
  | item blanks _ _ => blanks

/-- Only blanks stand between the tokens, the tokens are lexemes, and there is a blank between
any two words. -/
def Valid : Segmentation → Prop
  | last blanks => Blank blanks
  | item blanks t rest =>
    Blank blanks ∧ t.Lexeme ∧
      (∀ next ∈ rest.tokens.head?, t.IsWord → next.IsWord → rest.lead ≠ []) ∧ rest.Valid

/-- A word stops where the next gap or another lexeme starts, and two words that touch would be
one. -/
theorem Valid.wordStops_iff {s : Segmentation} (h : s.Valid) :
    WordStops s.text ↔ ∀ next ∈ s.tokens.head?, next.IsWord → s.lead ≠ [] := by
  cases s with
  | last blanks =>
    constructor
    · intro _ next hn
      cases hn
    · intro _ c hc
      exact isWordChar_of_isBlank (h c (List.mem_of_mem_head? hc))
  | item blanks t rest =>
    cases blanks with
    | nil =>
      obtain ⟨c, cs, hc, _, hword⟩ := h.2.1.head
      simp [WordStops, text, tokens, lead, hc, ← hword]
    | cons b blanks =>
      have hb := isWordChar_of_isBlank (h.1 b (by simp))
      simp [WordStops, text, lead, hb]

theorem Valid.stops {blanks : List Char} {t : Token} {rest : Segmentation}
    (h : (item blanks t rest).Valid) (hw : t.IsWord) : WordStops rest.text :=
  h.2.2.2.wordStops_iff.mpr fun next hn => h.2.2.1 next hn hw

/-- A cursor before a valid text yields its tokens. -/
theorem Valid.yields {s : Segmentation} (h : s.Valid) {c : Cursor} (hc : c.rest = s.text) :
    c.Yields s.tokens := by
  induction s generalizing c with
  | last blanks =>
    have hb : Blank c.rest := by
      rw [hc]
      exact h
    rw [tokens, Cursor.Yields, Cursor.pull_of_blank hb]
  | item blanks t rest ih =>
    obtain ⟨next, hp, hn⟩ := Cursor.pull_of_lexeme h.1 h.2.1 h.stops hc
    rw [tokens, Cursor.Yields, hp]
    exact ⟨rfl, ih h.2.2.2 hn⟩

/-- What a cursor yields stands in the text before it, and nothing else does. -/
theorem of_yields {c : Cursor} {ts : List Token} (h : c.Yields ts) :
    ∃ s : Segmentation, s.Valid ∧ s.tokens = ts ∧ s.text = c.rest := by
  induction ts generalizing c with
  | nil => exact ⟨.last c.rest, Cursor.blank_of_pull (Prod.ext h rfl), rfl, rfl⟩
  | cons t ts ih =>
    obtain ⟨hfirst, hrest⟩ := h
    obtain ⟨rest, hv, rfl, ht⟩ := ih hrest
    obtain ⟨blanks, hb, hc, hlex, hw⟩ := Cursor.lexeme_of_pull (Prod.ext hfirst rfl)
    refine ⟨.item blanks t rest, ⟨hb, hlex, ?_, hv⟩, rfl, by rw [text, ht, hc]⟩
    intro next hn htw
    rw [← ht] at hw
    exact hv.wordStops_iff.mp (hw htw) next hn

/-- A text has one segmentation: a cursor before it can pull one token only, and what is left
is again the same text. -/
theorem Valid.unique {s s' : Segmentation} (h : s.Valid) (h' : s'.Valid)
    (ht : s.text = s'.text) : s = s' := by
  induction s generalizing s' with
  | last blanks =>
    cases s' with
    | last blanks' => exact congrArg last ht
    | item blanks' t' rest' =>
      have hnone : Cursor.pull ⟨blanks, 0⟩ = (none, _) := Cursor.pull_of_blank h
      obtain ⟨next, hsome, _⟩ := Cursor.pull_of_lexeme h'.1 h'.2.1 h'.stops (c := ⟨blanks, 0⟩) ht
      rw [hnone] at hsome
      cases hsome
  | item blanks t rest ih =>
    let c : Cursor := ⟨(item blanks t rest).text, 0⟩
    obtain ⟨next, hp, hn⟩ := Cursor.pull_of_lexeme h.1 h.2.1 h.stops (c := c) rfl
    cases s' with
    | last blanks' =>
      have hb : Blank c.rest := by
        change Blank (item blanks t rest).text
        rw [ht]
        exact h'
      have hnone := Cursor.pull_of_blank hb
      rw [hp] at hnone
      cases hnone
    | item blanks' t' rest' =>
      obtain ⟨next', hp', hn'⟩ := Cursor.pull_of_lexeme h'.1 h'.2.1 h'.stops (c := c) ht
      rw [hp] at hp'
      cases hp'
      have hrest := ih h.2.2.2 h'.2.2.2 (hn.symm.trans hn')
      subst hrest
      have hblanks : blanks = blanks' := List.append_cancel_right ht
      rw [hblanks]

/-- The token stands in the text with `before` in front of it and `after` behind it. -/
inductive Occurs : Segmentation → List Char → Token → List Char → Prop where
  | here (blanks : List Char) (t : Token) (rest : Segmentation) :
      Occurs (item blanks t rest) blanks t rest.text
  | there {before after : List Char} {t : Token} {rest : Segmentation} (blanks : List Char)
      (first : Token) (h : Occurs rest before t after) :
      Occurs (item blanks first rest) (blanks ++ (first.text.toList ++ before)) t after

theorem Occurs.text_eq {s : Segmentation} {before after : List Char} {t : Token}
    (h : s.Occurs before t after) : s.text = before ++ (t.text.toList ++ after) := by
  induction h with
  | here blanks t rest => rfl
  | there blanks first h ih => simp [text, ih]

theorem Valid.lexeme {s : Segmentation} (h : s.Valid) : ∀ t ∈ s.tokens, t.Lexeme := by
  induction s with
  | last blanks =>
    intro t ht
    cases ht
  | item blanks first rest ih =>
    intro t ht
    rcases List.mem_cons.mp ht with rfl | ht
    · exact h.2.1
    · exact ih h.2.2.2 t ht

theorem Occurs.lead {s : Segmentation} {before after : List Char} {t : Token}
    (h : s.Occurs before t after) (hs : s.Valid) (hb : before = []) :
    s.lead = [] ∧ t ∈ s.tokens.head? := by
  cases h with
  | here blanks t rest => exact ⟨hb, rfl⟩
  | there blanks first h =>
    obtain ⟨c, cs, hc, _⟩ := hs.2.1.head
    simp [hc] at hb

/-- Words are as long as they can be, on both sides. -/
theorem Occurs.maximal {s : Segmentation} {before after : List Char} {t : Token}
    (h : s.Occurs before t after) (hs : s.Valid) (hw : t.IsWord) :
    (∀ c ∈ before.getLast?, isWordChar c = false) ∧ WordStops after := by
  induction h with
  | here blanks t rest =>
    refine ⟨?_, hs.stops hw⟩
    intro c hc
    exact isWordChar_of_isBlank (hs.1 c (List.mem_of_getLast? hc))
  | @there before after t rest blanks first h ih =>
    obtain ⟨hbefore, hafter⟩ := ih hs.2.2.2 hw
    refine ⟨?_, hafter⟩
    cases before with
    | cons b before => simpa using hbefore
    | nil =>
      -- the two lexemes touch, so the first is no word and does not end like one
      obtain ⟨hlead, hhead⟩ := h.lead hs.2.2.2 rfl
      obtain ⟨cs, last, hcs, hlast⟩ := hs.2.1.getLast
      have hn : isWordChar last = false := by
        cases hl : isWordChar last with
        | false => rfl
        | true => exact absurd hlead (hs.2.2.1 t hhead (hlast.mp hl) hw)
      simp [hcs, hn]

/-- There are blanks, and nothing but blanks, between any two tokens. -/
def Spaced : Segmentation → Prop
  | last blanks => Blank blanks
  | item blanks _ rest => Blank blanks ∧ (rest.tokens ≠ [] → rest.lead ≠ []) ∧ rest.Spaced

theorem Spaced.valid {s : Segmentation} (h : s.Spaced) (ht : ∀ t ∈ s.tokens, t.Lexeme) :
    s.Valid := by
  induction s with
  | last blanks => exact h
  | item blanks t rest ih =>
    refine ⟨h.1, ht t (by simp [tokens]), ?_, ih h.2.2 fun t hm => ht t (by simp [tokens, hm])⟩
    intro next hn _ _
    exact h.2.1 (List.ne_nil_of_mem (List.mem_of_mem_head? hn))

end Segmentation

theorem mapM_id_eq_ok_iff {ε α : Type} {items : List (Except ε α)} {xs : List α} :
    items.mapM id = .ok xs ↔ items = xs.map .ok := by
  induction items generalizing xs with
  | nil => cases xs <;> simp [pure, Except.pure]
  | cons item items ih =>
    rw [List.mapM_cons]
    cases item with
    | error e => cases xs <;> simp [bind, Except.bind]
    | ok x =>
      cases hm : items.mapM id with
      | error e => cases xs <;> simp [bind, Except.bind, hm, ← ih]
      | ok ys => cases xs <;> simp [bind, Except.bind, pure, Except.pure, hm, ← ih]

/-- To read a text is to pull each of its tokens. -/
theorem tokenize_eq_ok_iff {source : String} {ts : List Token} :
    tokenize source = .ok ts ↔ (Cursor.ofText source).Yields ts :=
  mapM_id_eq_ok_iff.trans Cursor.items_eq_map_iff

/-- A text is read as the tokens of its segmentation. -/
theorem Segmentation.Valid.tokenize {s : Segmentation} (h : s.Valid) {source : String}
    (ht : s.text = source.toList) : tokenize source = .ok s.tokens :=
  tokenize_eq_ok_iff.mpr (h.yields ht.symm)

theorem segmentation_of_tokenize {source : String} {ts : List Token}
    (h : tokenize source = .ok ts) :
    ∃ s : Segmentation, s.Valid ∧ s.tokens = ts ∧ s.text = source.toList :=
  Segmentation.of_yields (tokenize_eq_ok_iff.mp h)

/-- A source is read as exactly the tokens that, with blanks between them, make it up. It is made
up in one way only, words are never cut short, and with other blanks between them the same
tokens are read again. -/
theorem tokenize_eq_ok_iff_segmentation (source : String) :
    (∀ ts, tokenize source = .ok ts ↔
      ∃ s : Segmentation, s.Valid ∧ s.tokens = ts ∧ s.text = source.toList) ∧
    (∀ s s' : Segmentation, s.Valid → s'.Valid → s.text = source.toList →
      s'.text = source.toList → s = s') ∧
    (∀ (s : Segmentation) before t after, s.Valid → s.text = source.toList →
      s.Occurs before t after → t.IsWord →
      source.toList = before ++ (t.text.toList ++ after) ∧
        (∀ c ∈ before.getLast?, isWordChar c = false) ∧
        ∀ c ∈ after.head?, isWordChar c = false) ∧
    (∀ s : Segmentation, tokenize source = .ok s.tokens → s.Spaced →
      tokenize (String.ofList s.text) = .ok s.tokens) := by
  refine ⟨fun ts => ⟨segmentation_of_tokenize, ?_⟩, ?_, ?_, ?_⟩
  · rintro ⟨s, hs, rfl, ht⟩
    exact hs.tokenize ht
  · intro s s' hs hs' ht ht'
    exact hs.unique hs' (ht.trans ht'.symm)
  · intro s before t after hs ht ho hw
    exact ⟨ht.symm.trans ho.text_eq, ho.maximal hs hw⟩
  · intro s h hs
    obtain ⟨s', hs', ht', _⟩ := segmentation_of_tokenize h
    have hlex := hs'.lexeme
    rw [ht'] at hlex
    exact (hs.valid hlex).tokenize String.toList_ofList.symm

end TinyScript
