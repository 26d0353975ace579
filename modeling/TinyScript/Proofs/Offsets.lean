import TinyScript.Proofs.PositionalParser
import TinyScript.Proofs.Quotes

/-!
Reading a text by byte offsets. Tokens can also be found with nothing but an offset into the text, by
looking at slices that start there. Such a slice goes wrong where the offset is out of range or inside
a character. None does: every offset that is reached is the position of a cursor, each pull moves it
on, and what is pulled is the text that it moved over.
-/

namespace TinyScript

def textFrom? (text : String) (start : Nat) : Option String :=
  textBetween? text start text.utf8ByteSize

namespace Offsets

/-- The character at an offset. At the end of the text there is none. -/
def peek (text : String) (position : Nat) : Option (Option Char) := do
  return (← textFrom? text position).toList.head?

/-- Moves over one character. -/
def advance (text : String) (position : Nat) : Option Nat := do
  match ← peek text position with
  | none => return position
  | some c => return position + c.utf8Size

/-- Moves over the characters of a class, which goes wrong as well if it takes more than `limit`
looks. -/
def passWithin (p : Char → Bool) (text : String) : Nat → Nat → Option Nat
  | 0, _ => none
  | limit + 1, position => do
    match ← peek text position with
    | none => return position
    | some c =>
      if p c then do
        let next ← advance text position
        passWithin p text limit next
      else return position

def pass (p : Char → Bool) (text : String) (position : Nat) : Option Nat :=
  passWithin p text (text.utf8ByteSize + 1) position

/-- How many bytes there are before the first quote. -/
def bytesToQuote? : List Char → Option Nat
  | [] => none
  | c :: cs => if c = '"' then some 0 else (bytesToQuote? cs).map (c.utf8Size + ·)

/-- A quoted text from its first quote on, and the offset behind it. Both quotes take one byte. -/
def readQuoted (text : String) (start : Nat) : Option (Except LexError Token × Nat) := do
  let inner ← textFrom? text (start + 1)
  match bytesToQuote? inner.toList with
  | some length =>
    let next := start + length + 2
    return (.ok ⟨← textBetween? text start next⟩, next)
  | none => return (.error (.unclosedQuote start), text.utf8ByteSize)

/-- Moves over the control character or the word that starts with `first`. -/
def passLexeme (first : Char) (text : String) (start : Nat) : Option Nat :=
  if isControl first then advance text start else pass isWordChar text start

/-- The next item from an offset on, and the offset behind it. -/
def pull (text : String) (position : Nat) : Option (Option (Except LexError Token) × Nat) := do
  let start ← pass isBlank text position
  match ← peek text start with
  | none => return (none, start)
  | some c =>
    if c = '"' then do
      let (item, next) ← readQuoted text start
      return (some item, next)
    else do
      let next ← passLexeme c text start
      return (some (.ok ⟨← textBetween? text start next⟩), next)

/-- The offset after `n` pulls. -/
def pulled (text : String) : Nat → Option Nat
  | 0 => some 0
  | n + 1 => do
    let (_, next) ← pull text (← pulled text n)
    return next

/-- An offset inside a character is no place to look. -/
example : peek "é" 1 = none := by
  decide

end Offsets

theorem length_le_byteLength (cs : List Char) : cs.length ≤ byteLength cs := by
  induction cs with
  | nil => exact Nat.le_refl 0
  | cons c cs ih =>
    have := c.utf8Size_pos
    rw [List.length_cons, byteLength]
    omega

theorem utf8ByteSize_ofList (cs : List Char) : (String.ofList cs).utf8ByteSize = byteLength cs := by
  rw [← byteLength_toList, String.toList_ofList]

/-- Between the bytes of what comes before and those of what comes after is what stands there. -/
theorem textBetween?_of_toList {text : String} {before middle after : List Char}
    (h : text.toList = before ++ (middle ++ after)) :
    textBetween? text (byteLength before) (byteLength before + byteLength middle) =
      some (String.ofList middle) := by
  have htext : text = String.ofList before ++ String.ofList middle ++ String.ofList after := by
    rw [← String.toList_inj, h]
    simp
  rw [htext, ← utf8ByteSize_ofList before, ← utf8ByteSize_ofList middle]
  exact textBetween?_append _ _ _

namespace Offsets

variable {text : String} {before rest : List Char}

theorem textFrom?_of_toList (h : text.toList = before ++ rest) :
    textFrom? text (byteLength before) = some (String.ofList rest) := by
  have hsize : text.utf8ByteSize = byteLength before + byteLength rest := by
    rw [← byteLength_toList, h, byteLength_append]
  rw [textFrom?, hsize]
  exact textBetween?_of_toList (h.trans (by rw [List.append_nil]))

theorem peek_of_toList (h : text.toList = before ++ rest) :
    peek text (byteLength before) = some rest.head? := by
  rw [peek, textFrom?_of_toList h]
  simp

theorem advance_of_toList {c : Char} (h : text.toList = before ++ c :: rest) :
    advance text (byteLength before) = some (byteLength before + c.utf8Size) := by
  rw [advance, peek_of_toList h]
  rfl

/-- There are enough looks if there is one for each character that is left and one for the end. -/
theorem passWithin_of_toList (p : Char → Bool) {limit : Nat} (h : text.toList = before ++ rest)
    (hl : rest.length < limit) :
    passWithin p text limit (byteLength before) =
      some (byteLength before + byteLength (rest.takeWhile p)) := by
  induction limit generalizing before rest with
  | zero => cases hl
  | succ limit ih =>
    rw [passWithin, peek_of_toList h]
    cases rest with
    | nil => rfl
    | cons c rest =>
      by_cases hp : p c = true
      · have hnext : text.toList = (before ++ [c]) ++ rest := by
          rw [h]
          simp
        have hpass := ih hnext (Nat.lt_of_succ_lt_succ hl)
        have hlength : byteLength (before ++ [c]) = byteLength before + c.utf8Size := by
          rw [byteLength_append]
          rfl
        rw [hlength] at hpass
        simp only [List.head?_cons, Option.bind_eq_bind, Option.bind_some, hp, ↓reduceIte,
          advance_of_toList h, hpass, List.takeWhile_cons, byteLength, Nat.add_assoc]
      · simp [hp, byteLength]

theorem pass_of_toList (p : Char → Bool) (h : text.toList = before ++ rest) :
    pass p text (byteLength before) = some (byteLength before + byteLength (rest.takeWhile p)) := by
  apply passWithin_of_toList p h
  have hlength := length_le_byteLength rest
  rw [← byteLength_toList, h, byteLength_append]
  omega

theorem bytesToQuote?_of_not_mem {cs : List Char} (h : '"' ∉ cs) : bytesToQuote? cs = none := by
  induction cs with
  | nil => rfl
  | cons c cs ih =>
    rw [List.mem_cons, not_or] at h
    rw [bytesToQuote?, if_neg fun hc => h.1 hc.symm, ih h.2]
    rfl

theorem bytesToQuote?_append {content : List Char} (h : '"' ∉ content) (after : List Char) :
    bytesToQuote? (content ++ '"' :: after) = some (byteLength content) := by
  induction content with
  | nil => rfl
  | cons c content ih =>
    rw [List.mem_cons, not_or] at h
    rw [List.cons_append, bytesToQuote?, if_neg fun hc => h.1 hc.symm, ih h.2]
    rfl

/-- A quote takes one byte, so the slice behind it starts one further. -/
theorem textFrom?_behind_quote (h : text.toList = before ++ '"' :: rest) :
    textFrom? text (byteLength before + 1) = some (String.ofList rest) := by
  have hinner : text.toList = (before ++ ['"']) ++ rest := by
    rw [h]
    simp
  have hlength : byteLength (before ++ ['"']) = byteLength before + 1 := by
    rw [byteLength_append]
    rfl
  have hfrom := textFrom?_of_toList hinner
  rwa [hlength] at hfrom

/-- Behind a quote, the text up to the next one is read, and if there is none the text is used up. -/
theorem readQuoted_of_lexeme? {chars : List Char} (h : text.toList = before ++ '"' :: rest)
    (hl : lexeme? '"' rest = some chars) :
    readQuoted text (byteLength before) =
      some (.ok ⟨String.ofList chars⟩, byteLength before + byteLength chars) := by
  obtain ⟨content, after, hq, rfl, rfl⟩ := quoted_of_lexeme? hl
  have hwhole : text.toList = before ++ ('"' :: (content ++ ['"']) ++ after) := by
    rw [h]
    simp
  have hsize : byteLength before + byteLength ('"' :: (content ++ ['"'])) =
      byteLength before + byteLength content + 2 := by
    have hquote : '"'.utf8Size = 1 := rfl
    rw [byteLength, byteLength_append, byteLength, byteLength, hquote]
    omega
  have hslice := textBetween?_of_toList hwhole
  rw [hsize] at hslice
  rw [readQuoted, textFrom?_behind_quote h, hsize]
  simp [bytesToQuote?_append hq, hslice]

theorem readQuoted_of_not_mem (h : text.toList = before ++ '"' :: rest) (hq : '"' ∉ rest) :
    readQuoted text (byteLength before) =
      some (.error (.unclosedQuote (byteLength before)), text.utf8ByteSize) := by
  rw [readQuoted, textFrom?_behind_quote h]
  simp [bytesToQuote?_of_not_mem hq]

end Offsets

namespace Cursor

/-- The cursor stands in the text, and its position says how many bytes of it lie behind. -/
def Stands (text : String) (c : Cursor) : Prop :=
  ∃ before, text.toList = before ++ c.rest ∧ c.position = byteLength before

variable {text : String} {c : Cursor}

theorem stands_ofText (text : String) : (Cursor.ofText text).Stands text :=
  ⟨[], rfl, rfl⟩

theorem Stands.advance (h : c.Stands text) (n : Nat) : (c.advance n).Stands text := by
  obtain ⟨before, htext, hposition⟩ := h
  refine ⟨before ++ c.rest.take n, ?_, ?_⟩
  · rw [htext, List.append_assoc]
    simp [Cursor.advance]
  · rw [byteLength_append, ← hposition]
    rfl

theorem Stands.skipBlanks (h : c.Stands text) : c.skipBlanks.Stands text :=
  h.advance _

theorem Stands.pull (h : c.Stands text) : c.pull.2.Stands text := by
  rw [Cursor.pull]
  split
  · exact h.skipBlanks
  · split
    · exact h.skipBlanks.advance _
    · exact h.skipBlanks.advance _

theorem pulled_succ (c : Cursor) (n : Nat) : c.pulled (n + 1) = (c.pulled n).pull.2 := by
  induction n generalizing c with
  | zero => rfl
  | succ n ih => exact ih c.pull.2

theorem Stands.pulled (h : c.Stands text) (n : Nat) : (c.pulled n).Stands text := by
  induction n with
  | zero => exact h
  | succ n ih =>
    rw [pulled_succ]
    exact ih.pull

theorem Stands.position_le (h : c.Stands text) : c.position ≤ text.utf8ByteSize := by
  obtain ⟨before, htext, hposition⟩ := h
  rw [hposition, ← byteLength_toList, htext, byteLength_append]
  exact Nat.le_add_right _ _

/-- A position never falls inside a character. -/
theorem Stands.isValid (h : c.Stands text) : String.Pos.Raw.IsValid text ⟨c.position⟩ := by
  obtain ⟨before, htext, hposition⟩ := h
  refine String.Pos.Raw.isValid_iff_exists_append.mpr
    ⟨String.ofList before, String.ofList c.rest, ?_, ?_⟩
  · rw [← String.toList_inj, htext]
    simp
  · rw [hposition, ← utf8ByteSize_ofList]
    rfl

/-- Where fewer characters are left, more bytes lie behind. -/
theorem Stands.position_lt {next : Cursor} (h : c.Stands text) (hn : next.Stands text)
    (hl : next.rest.length < c.rest.length) : c.position < next.position := by
  obtain ⟨before, htext, hposition⟩ := h
  obtain ⟨before', htext', hposition'⟩ := hn
  have hlength := congrArg List.length (htext.symm.trans htext')
  rw [List.length_append, List.length_append] at hlength
  obtain ⟨passed, hpassed⟩ := List.prefix_of_prefix_length_le (List.prefix_append before c.rest)
    (htext.symm.trans htext' ▸ List.prefix_append before' next.rest) (by omega)
  have hmore := length_le_byteLength passed
  rw [hposition, hposition', ← hpassed, byteLength_append]
  rw [← hpassed, List.length_append] at hlength
  omega

/-- A cursor has as many bytes behind it as the slice up to it holds. -/
theorem Stands.textBetween? (h : c.Stands text) {chars after : List Char}
    (hrest : c.rest = chars ++ after) :
    textBetween? text c.position (c.position + byteLength chars) = some (String.ofList chars) := by
  obtain ⟨before, htext, hposition⟩ := h
  rw [hposition]
  exact textBetween?_of_toList (by rw [htext, hrest])

theorem position_skipBlanks (c : Cursor) :
    c.skipBlanks.position = c.position + byteLength (c.rest.takeWhile isBlank) := by
  have htake := List.prefix_iff_eq_take.mp (List.takeWhile_prefix (l := c.rest) isBlank)
  rw [skipBlanks, advance, ← htake]

theorem position_advance_append {chars after : List Char} (h : c.rest = chars ++ after) :
    (c.advance chars.length).position = c.position + byteLength chars := by
  rw [advance, h, List.take_left]

theorem Stands.passLexeme {first : Char} {rest chars : List Char} (h : c.Stands text)
    (hrest : c.rest = first :: rest) (hb : isBlank first = false) (hq : first ≠ '"')
    (hl : lexeme? first rest = some chars) :
    Offsets.passLexeme first text c.position = some (c.position + byteLength chars) := by
  obtain ⟨before, htext, hposition⟩ := h
  rw [hrest] at htext
  rw [lexeme?, if_neg hq] at hl
  rw [Offsets.passLexeme]
  by_cases hc : isControl first = true
  · rw [if_pos hc] at hl ⊢
    cases hl
    rw [hposition, Offsets.advance_of_toList htext]
    rfl
  · rw [if_neg hc] at hl ⊢
    cases hl
    have hw : isWordChar first = true := by simp [isWordChar, hb, hc]
    rw [hposition, Offsets.pass_of_toList _ htext, List.takeWhile_cons_of_pos hw]

/-- Reading by offsets does not go wrong from the position of a cursor. It gives what the cursor pulls
and comes to where the cursor stands then. -/
theorem Stands.offsets_pull (h : c.Stands text) :
    Offsets.pull text c.position = some (c.pull.1, c.pull.2.position) := by
  have hpass : Offsets.pass isBlank text c.position = some c.skipBlanks.position := by
    obtain ⟨before, htext, hposition⟩ := h
    rw [position_skipBlanks, hposition]
    exact Offsets.pass_of_toList isBlank htext
  have hskip := h.skipBlanks
  obtain ⟨lead, hlead, hstart⟩ := h.skipBlanks
  have hpeek := Offsets.peek_of_toList hlead
  rw [← hstart] at hpeek
  rw [Offsets.pull, hpass, Cursor.pull]
  simp only [Option.bind_eq_bind, Option.bind_some, hpeek]
  cases hs : c.skipBlanks.rest with
  | nil => rfl
  | cons first rest =>
    have hb := isBlank_head_skipBlanks hs
    rw [hs] at hlead
    simp only [List.head?_cons]
    cases hl : lexeme? first rest with
    | none =>
      obtain ⟨rfl, hq⟩ := lexeme?_eq_none_iff.mp hl
      have hend : (c.skipBlanks.advance c.skipBlanks.rest.length).position = text.utf8ByteSize := by
        rw [position_advance_append (List.append_nil _).symm, hstart, ← byteLength_toList, hlead,
          byteLength_append, hs]
      rw [hs] at hend
      simp only [↓reduceIte, hstart, Offsets.readQuoted_of_not_mem hlead hq, Option.bind_some]
      simp only [hend]
      rfl
    | some chars =>
      obtain ⟨after, hchars, _⟩ := lexeme?_eq_some hb hl
      have hnext := position_advance_append (hs.trans hchars)
      by_cases hq : first = '"'
      · subst hq
        have hread := Offsets.readQuoted_of_lexeme? hlead hl
        rw [← hstart] at hread
        simp only [↓reduceIte, hread, Option.bind_some, hnext]
        rfl
      · have hword := hskip.passLexeme hs hb hq hl
        have hslice := hskip.textBetween? (hs.trans hchars)
        simp only [if_neg hq, hword, Option.bind_some, hslice, hnext]
        rfl

/-- What is pulled takes characters off the text, so there are no more items than characters. -/
theorem length_items_le (c : Cursor) : c.items.1.length ≤ c.rest.length := by
  induction hn : c.rest.length using Nat.strongRecOn generalizing c with
  | _ n ih =>
    cases hp : c.pull with
    | mk item next =>
      cases item with
      | none =>
        rw [items_of_none hp]
        exact Nat.zero_le n
      | some item =>
        have hl := length_pull_lt hp
        have hmore := ih _ (hn ▸ hl) next rfl
        rw [items_of_some hp, List.length_cons]
        omega

/-- A token is the text from where the blanks end to where the cursor stands behind it. -/
theorem Stands.token_text (h : c.Stands text) {t : Token} (hp : c.pull.1 = some (.ok t)) :
    t.text ≠ "" ∧
      TinyScript.textBetween? text c.skipBlanks.position c.pull.2.position = some t.text := by
  have hpull : c.pull = (some (.ok t), c.pull.2) := Prod.ext hp rfl
  have hrest := rest_skipBlanks_of_pull hpull
  have hstop := (stop_skipBlanks c).trans (stop_pull c).symm
  have hnext : c.pull.2.position = c.skipBlanks.position + byteLength t.text.toList := by
    rw [stop, stop, hrest, byteLength_append] at hstop
    omega
  constructor
  · intro hempty
    obtain ⟨_, _, _, ht, _⟩ := lexeme_of_pull hpull
    obtain ⟨first, cs, hf, _⟩ := ht.head
    rw [hempty] at hf
    cases hf
  · rw [hnext, h.skipBlanks.textBetween? hrest, String.ofList_toList]

/-- What can be said of a cursor in a text by its position alone. -/
structure ReadsByOffset (text : String) (c : Cursor) : Prop where
  in_range : c.position ≤ text.utf8ByteSize
  between_chars : String.Pos.Raw.IsValid text ⟨c.position⟩
  pull_eq : Offsets.pull text c.position = some (c.pull.1, c.pull.2.position)
  moves : ∀ item, c.pull.1 = some item → c.position < c.pull.2.position
  takes : ∀ t, c.pull.1 = some (.ok t) → t.text ≠ "" ∧
    TinyScript.textBetween? text c.skipBlanks.position c.pull.2.position = some t.text

theorem Stands.readsByOffset (h : c.Stands text) : c.ReadsByOffset text where
  in_range := h.position_le
  between_chars := h.isValid
  pull_eq := h.offsets_pull
  moves := by
    intro item hp
    exact h.position_lt h.pull (length_pull_lt (Prod.ext hp rfl : c.pull = (some item, c.pull.2)))
  takes := fun _ hp => h.token_text hp

end Cursor

theorem Offsets.pulled_eq (text : String) (n : Nat) :
    Offsets.pulled text n = some ((Cursor.ofText text).pulled n).position := by
  induction n with
  | zero => rfl
  | succ n ih =>
    have hpull := ((Cursor.stands_ofText text).pulled n).offsets_pull
    rw [Offsets.pulled, ih, Cursor.pulled_succ]
    simp [hpull]

/-- After any number of pulls the position is in range and between two characters, and reading from
there by offsets alone does not go wrong: no slice does. Each item moves the position on, a token is the
text that was moved over behind the blanks, and there are no more items than the text has bytes. -/
theorem pulled_readsByOffset (source : String) :
    (∀ n, Offsets.pulled source n = some ((Cursor.ofText source).pulled n).position ∧
      ((Cursor.ofText source).pulled n).ReadsByOffset source) ∧
    (Cursor.ofText source).items.1.length ≤ source.utf8ByteSize ∧
    ∀ n, source.utf8ByteSize ≤ n → (Cursor.ofText source).nth? n = none := by
  have hlength : (Cursor.ofText source).items.1.length ≤ source.utf8ByteSize := by
    rw [← byteLength_toList]
    exact (Cursor.length_items_le _).trans (length_le_byteLength source.toList)
  refine ⟨fun n => ⟨Offsets.pulled_eq source n, ?_⟩, hlength, fun n hn => ?_⟩
  · exact ((Cursor.stands_ofText source).pulled n).readsByOffset
  · rw [← Cursor.getElem?_items]
    exact List.getElem?_eq_none (hlength.trans hn)

end TinyScript
