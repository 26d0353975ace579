import TinyScript.Proofs.Segmentation
import Mathlib.Algebra.Ring.Parity

/-!
Quotes without a partner. Every token holds an even number of quotes, so the number of quotes in a
text decides whether it can be read to its end. If one of them is left over it is the last one, and
all that stands before it is read.
-/

namespace TinyScript

theorem byteLength_append (cs ds : List Char) :
    byteLength (cs ++ ds) = byteLength cs + byteLength ds := by
  induction cs with
  | nil => simp [byteLength]
  | cons c cs ih => simp only [List.cons_append, byteLength, ih, Nat.add_assoc]

/-- Bytes are counted as they are stored. -/
theorem byteLength_toList (s : String) : byteLength s.toList = s.utf8ByteSize := by
  have hsize : ∀ cs : List Char, byteLength cs = cs.utf8Encode.size := by
    intro cs
    induction cs with
    | nil => rfl
    | cons c cs ih =>
      have hc : [c].utf8Encode.size = c.utf8Size := by
        rw [← String.toByteArray_singleton, String.size_toByteArray, String.utf8ByteSize_singleton]
      rw [byteLength, ih, List.utf8Encode_cons, ByteArray.size_append, hc]
  rw [hsize, String.utf8Encode_toList, String.size_toByteArray]

namespace Cursor

/-- The position at which the text ends. -/
def stop (c : Cursor) : Nat :=
  c.position + byteLength c.rest

theorem stop_advance (c : Cursor) (n : Nat) : (c.advance n).stop = c.stop := by
  have hsplit : byteLength (c.rest.take n) + byteLength (c.rest.drop n) = byteLength c.rest := by
    rw [← byteLength_append, List.take_append_drop]
  simp only [stop, advance]
  omega

theorem stop_skipBlanks (c : Cursor) : c.skipBlanks.stop = c.stop :=
  stop_advance c _

/-- Pulls go over the text but do not change it. -/
theorem stop_pull (c : Cursor) : c.pull.2.stop = c.stop := by
  rw [pull]
  split
  · exact stop_skipBlanks c
  · split
    · exact (stop_advance _ _).trans (stop_skipBlanks c)
    · exact (stop_advance _ _).trans (stop_skipBlanks c)

/-- The cursor after `n` pulls. -/
def pulled : Cursor → Nat → Cursor
  | c, 0 => c
  | c, n + 1 => c.pull.2.pulled n

/-- What is pulled after `n` pulls. -/
def nth? (c : Cursor) (n : Nat) : Option (Except LexError Token) :=
  (c.pulled n).pull.1

theorem nth?_zero (c : Cursor) : c.nth? 0 = c.pull.1 :=
  rfl

theorem nth?_succ (c : Cursor) (n : Nat) : c.nth? (n + 1) = c.pull.2.nth? n :=
  rfl

/-- From blanks nothing is ever pulled. -/
theorem nth?_of_blank {c : Cursor} (h : Blank c.rest) (n : Nat) : c.nth? n = none := by
  induction n generalizing c with
  | zero => rw [nth?_zero, pull_of_blank h]
  | succ n ih =>
    have hrest : c.skipBlanks.rest = [] := by
      rw [rest_skipBlanks]
      exact List.dropWhile_eq_nil_iff.mpr h
    rw [nth?_succ, pull_of_blank h]
    apply ih
    simp [Blank, hrest]

/-- The items of a cursor are what its pulls give, one after the other and then no more. -/
theorem getElem?_items (c : Cursor) (n : Nat) : c.items.1[n]? = c.nth? n := by
  induction n generalizing c with
  | zero =>
    rw [nth?_zero]
    cases hp : c.pull with
    | mk item next =>
      cases item with
      | none => simp [items_of_none hp]
      | some item => simp [items_of_some hp]
  | succ n ih =>
    cases hp : c.pull with
    | mk item next =>
      cases item with
      | none => simp [items_of_none hp, nth?_of_blank (blank_of_pull hp)]
      | some item =>
        rw [items_of_some hp, nth?_succ, hp]
        simp [ih]

end Cursor

theorem isBlank_quote : isBlank '"' = false :=
  isBlank_symbol .quote

theorem Blank.count_quote {cs : List Char} (h : Blank cs) : cs.count '"' = 0 := by
  apply List.count_eq_zero.mpr
  intro hm
  have hb := h _ hm
  rw [isBlank_quote] at hb
  cases hb

/-- The quotes of a token are a pair, or there are none. -/
theorem Token.Lexeme.even_count_quote {t : Token} (h : t.Lexeme) :
    Even (t.text.toList.count '"') := by
  cases h with
  | @symbol s hs => simp [Symbol.toList_text, Symbol.char_ne_quote hs]
  | @quoted content hq =>
    rw [String.toList_ofList, List.count_cons_self, List.count_append,
      List.count_eq_zero.mpr hq]
    exact ⟨1, rfl⟩
  | word hw =>
    have hq : '"' ∉ t.text.toList := fun hm => ne_quote_of_isWordChar (hw.2 _ hm) rfl
    rw [List.count_eq_zero.mpr hq]
    exact ⟨0, rfl⟩

/-- There is no lexeme only where a quote is never closed. -/
theorem lexeme?_eq_none_iff {first : Char} {rest : List Char} :
    lexeme? first rest = none ↔ first = '"' ∧ '"' ∉ rest := by
  have hdrop : rest.dropWhile (· ≠ '"') = [] ↔ '"' ∉ rest := by
    rw [List.dropWhile_eq_nil_iff]
    constructor
    · intro h hm
      exact of_decide_eq_true (h _ hm) rfl
    · intro h c hc
      exact decide_eq_true fun he => h (he ▸ hc)
  by_cases hq : first = '"'
  · rw [lexeme?, if_pos hq, ← hdrop]
    cases hd : rest.dropWhile (· ≠ '"') with
    | nil => simp [hq]
    | cons c cs => simp
  · rw [lexeme?, if_neg hq]
    split <;> simp [hq]

namespace Cursor

/-- A quote that is never closed is found behind blanks, and nothing is left behind it. -/
theorem pull_of_unclosed {c : Cursor} {blanks after : List Char} (hb : Blank blanks)
    (ha : '"' ∉ after) (hc : c.rest = blanks ++ '"' :: after) :
    ∃ next, c.pull = (some (.error (.unclosedQuote (c.position + byteLength blanks))), next) ∧
      next.rest = [] := by
  have hs : c.skipBlanks.rest = '"' :: after := by
    rw [rest_skipBlanks, hc, List.dropWhile_append_of_pos hb,
      List.dropWhile_cons_of_neg (by simp [isBlank_quote])]
  have hposition : c.skipBlanks.position = c.position + byteLength blanks := by
    have hstop := stop_skipBlanks c
    rw [stop, stop, hs, hc, byteLength_append] at hstop
    omega
  refine ⟨c.skipBlanks.advance c.skipBlanks.rest.length, ?_, ?_⟩
  · rw [pull]
    simp only [hs, lexeme?_eq_none_iff.mpr ⟨rfl, ha⟩, hposition]
  · simp [advance]

/-- An error is pulled only there. -/
theorem unclosed_of_pull {c next : Cursor} {e : LexError}
    (h : c.pull = (some (.error e), next)) :
    ∃ blanks after, Blank blanks ∧ '"' ∉ after ∧ c.rest = blanks ++ '"' :: after := by
  rw [pull] at h
  split at h
  · cases h
  · rename_i first rest hs
    split at h
    · cases h
    · rename_i hx
      obtain ⟨hq, ha⟩ := lexeme?_eq_none_iff.mp hx
      refine ⟨c.rest.takeWhile isBlank, rest, fun _ => List.mem_takeWhile_imp, ha, ?_⟩
      rw [← hq, ← hs, rest_skipBlanks, List.takeWhile_append_dropWhile]

/-- Each token takes an even number of quotes away, so there is none left over for an error. -/
theorem exists_yields {c : Cursor} (h : Even (c.rest.count '"')) : ∃ ts, c.Yields ts := by
  induction hn : c.rest.length using Nat.strongRecOn generalizing c with
  | _ n ih =>
    cases hp : c.pull with
    | mk item next =>
      rcases item with _ | (e | t)
      · exact ⟨[], by rw [Yields, hp]⟩
      · obtain ⟨blanks, after, hb, ha, hc⟩ := unclosed_of_pull hp
        rw [hc, List.count_append, hb.count_quote, List.count_cons_self,
          List.count_eq_zero.mpr ha] at h
        cases Nat.not_even_one h
      · obtain ⟨blanks, hb, hc, ht, _⟩ := lexeme_of_pull hp
        rw [hc, List.count_append, hb.count_quote, Nat.zero_add, List.count_append] at h
        have hnext := (Nat.even_add.mp h).mp ht.even_count_quote
        obtain ⟨ts, hts⟩ := ih _ (hn ▸ length_pull_lt hp) hnext rfl
        exact ⟨t :: ts, by rw [Yields, hp]; exact ⟨rfl, hts⟩⟩

end Cursor

/-- A word does not go on in a quote. -/
theorem WordStops.append_quote {cs : List Char} (h : WordStops cs) (after : List Char) :
    WordStops (cs ++ '"' :: after) := by
  cases cs with
  | nil =>
    intro c hc
    cases hc
    exact isWordChar_quote
  | cons c cs => exact h

/-- Before a quote that is never closed all is read as if the text ended there. -/
theorem Segmentation.Valid.items {s : Segmentation} (h : s.Valid) {c : Cursor}
    {after : List Char} (ha : '"' ∉ after) (hc : c.rest = s.text ++ '"' :: after) :
    c.items.1 = s.tokens.map .ok ++
      [.error (.unclosedQuote (c.position + byteLength s.text))] := by
  induction s generalizing c with
  | last blanks =>
    obtain ⟨next, hp, hn⟩ := Cursor.pull_of_unclosed h ha hc
    have hend : next.pull = (none, next.skipBlanks) := Cursor.pull_of_blank (by simp [Blank, hn])
    rw [Cursor.items_of_some hp, Cursor.items_of_none hend]
    rfl
  | item blanks t rest ih =>
    rw [text, List.append_assoc, List.append_assoc] at hc
    obtain ⟨next, hp, hn⟩ := Cursor.pull_of_lexeme h.1 h.2.1
      (fun hw => (h.stops hw).append_quote after) hc
    have hposition : next.position + byteLength rest.text =
        c.position + byteLength (item blanks t rest).text := by
      have hstop := Cursor.stop_pull c
      rw [hp, Cursor.stop, Cursor.stop, hn, hc] at hstop
      simp only [text, byteLength_append] at hstop ⊢
      omega
    rw [Cursor.items_of_some hp, ih h.2.2.2 hn, hposition]
    rfl

theorem mapM_id_append_error {ε α : Type} (xs : List α) (e : ε) :
    (xs.map Except.ok ++ [Except.error e]).mapM id = (.error e : Except ε (List α)) := by
  induction xs with
  | nil => rfl
  | cons x xs ih =>
    rw [List.map_cons, List.cons_append, List.mapM_cons, ih]
    rfl

theorem toList_around_quote (before after : String) :
    (before ++ "\"" ++ after).toList = before.toList ++ '"' :: after.toList := by
  simp

/-- Where there is a quote there is a last one. -/
theorem exists_last_quote {source : String} (h : '"' ∈ source.toList) :
    ∃ before after : String, source = before ++ "\"" ++ after ∧ '"' ∉ after.toList := by
  obtain ⟨as, bs, hs, hb⟩ := List.eq_append_cons_of_mem (List.mem_reverse.mpr h)
  refine ⟨String.ofList bs.reverse, String.ofList as.reverse, ?_, by simpa using hb⟩
  have hl := congrArg List.reverse hs
  rw [List.reverse_reverse] at hl
  rw [← String.toList_inj, hl, toList_around_quote]
  simp

/-- Whether a text can be read is decided by the number of its quotes. If that is even, the text is
read to its end. If it is odd, what stands before the last quote is read, then there is the one
error, which tells where that quote is, and behind it nothing more is pulled. -/
theorem tokenize_of_quotes (source : String) :
    (Even (source.toList.count '"') → ∃ ts, tokenize source = .ok ts ∧
      ∀ n, (Cursor.ofText source).nth? n = (ts.map .ok)[n]?) ∧
    (Odd (source.toList.count '"') → ∃ before after ts,
      source = before ++ "\"" ++ after ∧ '"' ∉ after.toList ∧ tokenize before = .ok ts ∧
      (∀ n, (Cursor.ofText source).nth? n =
        (ts.map .ok ++ [.error (.unclosedQuote before.utf8ByteSize)])[n]?) ∧
      tokenize source = .error (.unclosedQuote before.utf8ByteSize)) := by
  constructor
  · intro h
    obtain ⟨ts, hts⟩ := Cursor.exists_yields (c := .ofText source) h
    refine ⟨ts, tokenize_eq_ok_iff.mpr hts, fun n => ?_⟩
    rw [← Cursor.getElem?_items, Cursor.items_eq_map_iff.mpr hts]
  · intro h
    have hm : '"' ∈ source.toList := by
      obtain ⟨k, hk⟩ := h
      exact List.count_pos_iff.mp (by omega)
    obtain ⟨before, after, rfl, ha⟩ := exists_last_quote hm
    have hbefore : Even (before.toList.count '"') := by
      rw [toList_around_quote, List.count_append, List.count_cons_self,
        List.count_eq_zero.mpr ha] at h
      exact Nat.not_odd_iff_even.mp (Nat.odd_add_one.mp h)
    obtain ⟨ts, hts⟩ := Cursor.exists_yields (c := .ofText before) hbefore
    obtain ⟨s, hs, rfl, ht⟩ := Segmentation.of_yields hts
    have hitems : (Cursor.ofText (before ++ "\"" ++ after)).items.1 =
        s.tokens.map .ok ++ [.error (.unclosedQuote before.utf8ByteSize)] := by
      have hrest : (Cursor.ofText (before ++ "\"" ++ after)).rest =
          s.text ++ '"' :: after.toList := by
        rw [ht]
        exact toList_around_quote before after
      have hi := hs.items ha hrest
      rwa [ht, Cursor.ofText, Cursor.ofText, Nat.zero_add, byteLength_toList] at hi
    refine ⟨before, after, s.tokens, rfl, ha, tokenize_eq_ok_iff.mpr hts, fun n => ?_, ?_⟩
    · rw [← Cursor.getElem?_items, hitems]
    · rw [tokenize, hitems, mapM_id_append_error]

/-- A text in quotes, and a quote that is never closed behind a letter of two bytes. -/
theorem tokenize_of_quotes_letter :
    (∃ ts, tokenize "\"é\"" = .ok ts) ∧ tokenize "é\"" = .error (.unclosedQuote 2) := by
  obtain ⟨ts, hts, _⟩ := (tokenize_of_quotes "\"é\"").1 (by decide)
  obtain ⟨before, after, _, hs, _, _, _, he⟩ := (tokenize_of_quotes "é\"").2 (by decide)
  have hl : ['é', '"'] = before.toList ++ '"' :: after.toList := by
    rw [← toList_around_quote, ← hs]
    rfl
  obtain ⟨hb, _⟩ : before.toList = ['é'] ∧ after = "" := by
    simpa [List.cons_eq_append_iff] using hl
  have hb : before = "é" := String.toList_inj.mp hb
  rw [hb] at he
  exact ⟨⟨ts, hts⟩, he⟩

end TinyScript
