import TinyScript.Parse.Program
import TinyScript.Proofs.Balance

/-!
Where units end. A unit without braces goes up to its semicolon, and one with a block up to the
brace that closes the block, whatever the block holds.
-/

namespace TinyScript

/-- Tokens that end no unit and open no block. -/
def Inline (ts : List Token) : Prop :=
  ∀ t ∈ ts, t.is .semicolon = false ∧ t.is .openBrace = false ∧ t.is .closeBrace = false

theorem Inline.append {u v : List Token} (hu : Inline u) (hv : Inline v) : Inline (u ++ v) := by
  intro t ht
  rcases List.mem_append.mp ht with ht | ht
  · exact hu t ht
  · exact hv t ht

theorem inline_of_kind {t : Token} (h : ∀ s, t.kind ≠ .symbol s) : Inline [t] := by
  intro t' ht
  cases List.mem_singleton.mp ht
  exact ⟨Token.is_eq_false h _, Token.is_eq_false h _, Token.is_eq_false h _⟩

theorem inline_symbol {s : Symbol} (h : s ∉ [.semicolon, .openBrace, .closeBrace]) :
    Inline [s.token] := by
  intro t ht
  cases List.mem_singleton.mp ht
  simpa using h

theorem inline_operator (op : Operator) : Inline [op.symbol.token] := by
  cases op <;> exact inline_symbol (by simp [Operator.symbol])

theorem inline_keyword (k : Keyword) : Inline [k.token] :=
  inline_of_kind (by simp [Keyword.token_kind])

theorem inline_joinCommas {pieces : List (List Token)} (h : ∀ piece ∈ pieces, Inline piece) :
    Inline (joinCommas pieces) := by
  induction pieces with
  | nil =>
    intro t ht
    cases ht
  | cons first pieces ih =>
    have hf := h first (by simp)
    have hrest := ih fun piece hp => h piece (List.mem_cons_of_mem _ hp)
    cases pieces with
    | nil => rwa [joinCommas_singleton]
    | cons second pieces =>
      have hm : Inline [Symbol.comma.token] := inline_symbol (by simp)
      rw [joinCommas_cons_cons]
      exact hf.append (hm.append hrest)

theorem inline_name {name : String} (h : Token.isName ⟨name⟩ = true) : Inline [⟨name⟩] :=
  inline_of_kind (by simp [Token.isName_iff.mp h])

/-- A name with a list in parentheses, as in a call or a signature. -/
theorem inline_list {name : String} {pieces : List (List Token)}
    (hn : Token.isName ⟨name⟩ = true) (h : ∀ piece ∈ pieces, Inline piece) :
    Inline (⟨name⟩ :: Symbol.openParen.token ::
      (joinCommas pieces ++ [Symbol.closeParen.token])) := by
  have ho : Inline [Symbol.openParen.token] := inline_symbol (by simp)
  have hc : Inline [Symbol.closeParen.token] := inline_symbol (by simp)
  exact (inline_name hn).append (ho.append ((inline_joinCommas h).append hc))

/-- A unit that was cut, with tokens put in front of it. -/
def prepend (u : List Token) (cut : Except ParseError (List Token × List Token)) :
    Except ParseError (List Token × List Token) :=
  cut.map fun (unit, rest) => (u ++ unit, rest)

@[simp]
theorem prepend_ok (u unit rest : List Token) :
    prepend u (.ok (unit, rest)) = .ok (u ++ unit, rest) :=
  rfl

theorem prepend_cons (t : Token) (u : List Token)
    (cut : Except ParseError (List Token × List Token)) :
    (prepend u cut).map (fun (unit, rest) => (t :: unit, rest)) = prepend (t :: u) cut := by
  cases cut <;> rfl

theorem prepend_nil (cut : Except ParseError (List Token × List Token)) :
    prepend [] cut = cut := by
  cases cut <;> rfl

variable (first : Token)

/-- Inline tokens belong to the unit that is being cut. -/
theorem cutUnit_inline {u : List Token} (h : Inline u) (depth : Nat) (ts : List Token) :
    cutUnit first depth (u ++ ts) = prepend u (cutUnit first depth ts) := by
  induction u with
  | nil => rw [List.nil_append, prepend_nil]
  | cons t u ih =>
    obtain ⟨hs, ho, hc⟩ := h t (by simp)
    rw [List.cons_append, cutUnit, if_neg (by simp [hs]), if_neg (by simp [ho]),
      if_neg (by simp [hc]), ih fun t ht => h t (by simp [ht]), prepend_cons]

/-- Inside of a block all goes to the unit, semicolons and blocks too. -/
theorem cutUnit_scan {depth d : Nat} {u : List Token} (h : Bracket.brace.Scan depth u d)
    (ts : List Token) :
    cutUnit first (depth + 1) (u ++ ts) = prepend u (cutUnit first (d + 1) ts) := by
  induction h with
  | nil depth => rw [List.nil_append, prepend_nil]
  | opened ho _ ih =>
    rw [List.cons_append, cutUnit, if_neg (by simp), if_pos (by simpa using ho), ih,
      prepend_cons]
  | closed ho hc _ ih =>
    rw [List.cons_append, cutUnit, if_neg (by simp), if_neg (by simpa using ho),
      if_pos (by simpa using hc), if_neg (by simp), if_neg (by simp), Nat.add_sub_cancel, ih,
      prepend_cons]
  | passed ho hc _ ih =>
    rw [List.cons_append, cutUnit, if_neg (by simp), if_neg (by simpa using ho),
      if_neg (by simpa using hc), ih, prepend_cons]

theorem cutUnit_semicolon (ts : List Token) :
    cutUnit first 0 (Symbol.semicolon.token :: ts) = .ok ([], ts) := by
  simp [cutUnit]

/-- A unit with a block ends at the brace that closes it. -/
theorem cutUnit_block {u body : List Token} (hu : Inline u) (hb : Bracket.brace.Balanced body)
    (ts : List Token) :
    cutUnit first 0 (u ++ Symbol.openBrace.token :: (body ++ Symbol.closeBrace.token :: ts)) =
      .ok (u ++ Symbol.openBrace.token :: (body ++ [Symbol.closeBrace.token]), ts) := by
  have hc : cutUnit first 1 (Symbol.closeBrace.token :: ts) =
      .ok ([Symbol.closeBrace.token], ts) := by
    simp [cutUnit]
  rw [cutUnit_inline first hu, cutUnit]
  simp only [Symbol.token_is, reduceCtorEq, decide_false, Bool.false_and, Bool.false_eq_true,
    ↓reduceIte, decide_true]
  rw [cutUnit_scan first hb, hc]
  rfl

/-- Only a semicolon is lost when a unit is cut off, and if there is none the unit holds a block
or is the last. -/
theorem cutUnit_shape {first : Token} {depth : Nat} {ts unit rest : List Token}
    (h : cutUnit first depth ts = .ok (unit, rest)) :
    ts = unit ++ Symbol.semicolon.token :: rest ∨
      ts = unit ++ rest ∧ (Symbol.closeBrace.token ∈ unit ∨ rest = []) := by
  induction ts generalizing depth unit with
  | nil =>
    rw [cutUnit] at h
    split at h <;> cases h
    exact .inr ⟨rfl, .inr rfl⟩
  | cons t ts ih =>
    have keep : ∀ {d : Nat}, (cutUnit first d ts).map (fun (u, r) => (t :: u, r)) =
        .ok (unit, rest) → t :: ts = unit ++ Symbol.semicolon.token :: rest ∨
          t :: ts = unit ++ rest ∧ (Symbol.closeBrace.token ∈ unit ∨ rest = []) := by
      intro d hd
      obtain ⟨⟨u, r⟩, hc, hd⟩ := except_bind_eq_ok hd
      cases hd
      rcases ih hc with hs | ⟨hs, hl⟩
      · exact .inl (by rw [hs]; rfl)
      · exact .inr ⟨by rw [hs]; rfl, hl.imp_left (List.mem_cons_of_mem _)⟩
    rw [cutUnit] at h
    split at h
    · rename_i hs
      cases h
      have ht : t = Symbol.semicolon.token := Token.eq_token (Bool.and_eq_true_iff.mp hs).1
      exact .inl (by rw [ht]; rfl)
    · split at h
      · exact keep h
      · split at h
        · rename_i hc
          split at h
          · cases h
          · split at h
            · cases h
              exact .inr ⟨rfl, .inl (by rw [Token.eq_token hc]; simp)⟩
            · exact keep h
        · exact keep h

end TinyScript
