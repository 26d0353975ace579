import TinyScript.Proofs.Composition

/-!
More tokens behind a unit. Where a unit is cut off and what it gives does not depend on what follows
it, so tokens that end with a unit are read the same way with more tokens behind them. Only a block
that is still open can be closed there.
-/

namespace TinyScript

/-- What one token does to the unit that is being cut: it ends the unit, or it belongs to it and the
cut is made behind. Outside of blocks only inline tokens are passed over. -/
inductive CutStep (first : Token) (depth : Nat) (t : Token) : Prop where
  | ended (unit : List Token) (h : ∀ ts, cutUnit first depth (t :: ts) = .ok (unit, ts))
  | failed (e : ParseError) (h : ∀ ts, cutUnit first depth (t :: ts) = .error e)
  | passed (d : Nat) (hi : d = 0 → depth = 0 ∧ Inline [t])
      (h : ∀ ts, cutUnit first depth (t :: ts) = prepend [t] (cutUnit first d ts))

theorem cutStep (first : Token) (depth : Nat) (t : Token) : CutStep first depth t := by
  by_cases hs : t.is .semicolon = true ∧ depth = 0
  · exact .ended [] fun ts => by simp [cutUnit, hs]
  by_cases ho : t.is .openBrace = true
  · refine .passed (depth + 1) (by omega) fun ts => ?_
    rw [cutUnit, if_neg (by simpa using hs), if_pos ho]
    rfl
  by_cases hc : t.is .closeBrace = true
  · by_cases hd : depth = 0
    · refine .failed (.unexpectedToken t.text) fun ts => ?_
      rw [cutUnit, if_neg (by simpa using hs), if_neg ho, if_pos hc, if_pos hd]
    by_cases hd' : depth = 1
    · refine .ended [t] fun ts => ?_
      rw [cutUnit, if_neg (by simpa using hs), if_neg ho, if_pos hc, if_neg hd, if_pos hd']
    · refine .passed (depth - 1) (by omega) fun ts => ?_
      rw [cutUnit, if_neg (by simpa using hs), if_neg ho, if_pos hc, if_neg hd, if_neg hd']
      rfl
  · refine .passed depth (fun hd => ⟨hd, ?_⟩) fun ts => ?_
    · simpa [Inline, ho, hc] using fun h => hs ⟨h, hd⟩
    · rw [cutUnit, if_neg (by simpa using hs), if_neg ho, if_neg hc]
      rfl

/-- The same cut with more tokens behind it. -/
def extend (bs : List Token) (cut : Except ParseError (List Token × List Token)) :
    Except ParseError (List Token × List Token) :=
  cut.map fun (unit, rest) => (unit, rest ++ bs)

theorem extend_prepend (u bs : List Token)
    (cut : Except ParseError (List Token × List Token)) :
    extend bs (prepend u cut) = prepend u (extend bs cut) := by
  cases cut <;> rfl

/-- A cut is made by the tokens up to it. Where the tokens run out before there is one, either a
block is open or nothing has come yet that could end the unit. -/
theorem cutUnit_append (first : Token) (depth : Nat) (as : List Token) :
    (∀ bs, cutUnit first depth (as ++ bs) = extend bs (cutUnit first depth as)) ∨
      cutUnit first depth as = .error (.unclosedBlock first.text) ∨ depth = 0 ∧ Inline as := by
  induction as generalizing depth with
  | nil =>
    by_cases hd : depth = 0
    · exact .inr (.inr ⟨hd, by simp [Inline]⟩)
    · exact .inr (.inl (by rw [cutUnit, if_neg hd]))
  | cons t ts ih =>
    cases cutStep first depth t with
    | ended unit h => exact .inl fun bs => by rw [List.cons_append, h, h]; rfl
    | failed e h => exact .inl fun bs => by rw [List.cons_append, h, h]; rfl
    | passed d hi h =>
      rcases ih d with hcut | hopen | ⟨hd, hinline⟩
      · refine .inl fun bs => ?_
        rw [List.cons_append, h, h, hcut, extend_prepend]
      · exact .inr (.inl (by rw [h, hopen]; rfl))
      · obtain ⟨hd, ht⟩ := hi hd
        exact .inr (.inr ⟨hd, ht.append hinline⟩)

/-- Behind a cut the tokens still end with a unit. -/
theorem endsUnit_of_cutUnit {first : Token} {ts unit rest : List Token}
    (h : cutUnit first 0 ts = .ok (unit, rest)) (he : endsUnit ts = true) :
    endsUnit rest = true := by
  rcases cutUnit_shape h with hs | ⟨hs, _⟩
  · rw [hs] at he
    exact endsUnit_of_append (u := [_]) (endsUnit_of_append he)
  · rw [hs] at he
    exact endsUnit_of_append he

/-- Reading fails where a unit cannot be cut off or read, and what was read before does not
matter. -/
theorem parse_cases_error {t : Token} {ts : List Token} {e : ParseError}
    (h : parse (t :: ts) = .error e) :
    cutUnit t 0 (t :: ts) = .error e ∨
      ∃ unit rest, cutUnit t 0 (t :: ts) = .ok (unit, rest) ∧
        (unit = [] ∧ parse rest = .error e ∨ unit ≠ [] ∧ parseUnit unit = .error e ∨
          ∃ n, unit ≠ [] ∧ parseUnit unit = .ok n ∧ parse rest = .error e) := by
  rw [parse_cons] at h
  cases hc : cutUnit t 0 (t :: ts) with
  | error e' =>
    rw [hc] at h
    cases h
    exact .inl rfl
  | ok pair =>
    obtain ⟨unit, rest⟩ := pair
    rw [hc] at h
    refine .inr ⟨unit, rest, rfl, ?_⟩
    simp only [Except.bind] at h
    split at h
    · rename_i hu
      exact .inl ⟨hu, h⟩
    · rename_i hu
      cases hn : parseUnit unit with
      | error e' =>
        rw [hn] at h
        cases h
        exact .inr (.inl ⟨hu, rfl⟩)
      | ok n =>
        rw [hn] at h
        cases hr : parse rest with
        | error e' =>
          rw [hr] at h
          exact .inr (.inr ⟨n, hu, rfl, h⟩)
        | ok nodes =>
          rw [hr] at h
          cases h

/-- No error but that of an open block is mended by more tokens: the units before it and the one
that fails are cut off and read as before. -/
theorem parse_append_of_error {as : List Token} {e : ParseError} (h : parse as = .error e)
    (he : endsUnit as = true) (hopen : ∀ opener, e ≠ .unclosedBlock opener) (bs : List Token) :
    parse (as ++ bs) = .error e := by
  induction hl : as.length using Nat.strongRecOn generalizing as with
  | _ n ih =>
    subst hl
    cases as with
    | nil =>
      rw [parse_nil] at h
      cases h
    | cons t ts =>
      rcases cutUnit_append t 0 (t :: ts) with hcut | hblock | ⟨_, hinline⟩
      · rw [List.cons_append, parse_cons, ← List.cons_append, hcut]
        rcases parse_cases_error h with hc | ⟨unit, rest, hc, hcases⟩
        · rw [hc]
          rfl
        · have hrest : parse rest = .error e → parse (rest ++ bs) = .error e := fun hr =>
            ih _ ((length_cutUnit hc).2 (by simp)) hr (endsUnit_of_cutUnit hc he) rfl
          rw [hc]
          simp only [extend, Except.map, Except.bind]
          rcases hcases with ⟨hu, hr⟩ | ⟨hu, hn⟩ | ⟨n, hu, hn, hr⟩
          · rw [if_pos hu, hrest hr]
          · rw [if_neg hu, hn]
          · rw [if_neg hu, hn, hrest hr]
      · rw [parse_cons, hblock] at h
        cases h
        exact absurd rfl (hopen _)
      · rw [hinline.endsUnit_eq_false (by simp)] at he
        cases he

/-- Tokens that end with a unit are read apart from those behind them. If they form a program, its
nodes come first and the rest is read for itself, errors included; if they do not, the error stays
the same whatever follows, unless it is that of an open block. So only an open block can be mended
by more tokens. -/
theorem parse_append_of_endsUnit {as : List Token} (he : endsUnit as = true) (bs : List Token) :
    (∀ p, parse as = .ok p →
      (∀ q, parse bs = .ok q → parse (as ++ bs) = .ok (p ++ q)) ∧
      ∀ e, parse bs = .error e → parse (as ++ bs) = .error e) ∧
    (∀ e, parse as = .error e → (∀ opener, e ≠ .unclosedBlock opener) →
      parse (as ++ bs) = .error e) ∧
    ∀ e, parse as = .error e → (∃ q, parse (as ++ bs) = .ok q) →
      ∃ opener, e = .unclosedBlock opener := by
  refine ⟨fun p hp => ?_, fun e h hopen => parse_append_of_error h he hopen bs, ?_⟩
  · have happend := (derives_of_parse hp).parse_append he bs
    constructor
    · intro q hq
      rw [happend, hq]
      rfl
    · intro e hq
      rw [happend, hq]
      rfl
  · intro e h hmended
    obtain ⟨q, hq⟩ := hmended
    by_contra hopen
    have hsame := parse_append_of_error h he (fun opener ho => hopen ⟨opener, ho⟩) bs
    rw [hsame] at hq
    cases hq

/-- A unit behind another, an error behind a unit and a unit behind an error; and a block that is
closed by what follows. -/
theorem parse_append_of_endsUnit_units :
    parse ([⟨"x"⟩, ⟨";"⟩] ++ [⟨"x"⟩]) = .ok [.expr (.variable "x"), .expr (.variable "x")] ∧
    parse ([⟨"x"⟩, ⟨";"⟩] ++ [⟨")"⟩, ⟨";"⟩]) = .error (.unexpectedToken ")") ∧
    parse ([⟨")"⟩, ⟨";"⟩] ++ [⟨"x"⟩]) = .error (.unexpectedToken ")") ∧
    ∃ opener q,
      parse [⟨"func"⟩, ⟨"f"⟩, ⟨"("⟩, ⟨")"⟩, ⟨"\x7b"⟩, ⟨"x"⟩, ⟨";"⟩] =
        .error (.unclosedBlock opener) ∧
      parse ([⟨"func"⟩, ⟨"f"⟩, ⟨"("⟩, ⟨")"⟩, ⟨"\x7b"⟩, ⟨"x"⟩, ⟨";"⟩] ++ [⟨"\x7d"⟩]) = .ok q := by
  have hx : SimpleUnit [⟨"x"⟩] (.expr (.variable "x")) := .expr (parseExpr_flat (.name rfl))
  have hok := (Derives.unit hx .nil).parse
  have herror : parse [⟨")"⟩, ⟨";"⟩] = .error (.unexpectedToken ")") := by
    have he : parseExpr [⟨")"⟩] = .error (.unexpectedToken ")") := by
      rw [parseExpr_eq]
      rfl
    have hi : Inline [⟨")"⟩] := inline_symbol (s := .closeParen) (by simp)
    have hu : parseUnit [⟨")"⟩] = .error (.unexpectedToken ")") := by
      rw [parseUnit_expr (by intro k hk; cases hk), he]
      rfl
    have hp := hi.parse_append (by simp) []
    rw [hu] at hp
    exact hp
  have hopen : parse [⟨"func"⟩, ⟨"f"⟩, ⟨"("⟩, ⟨")"⟩, ⟨"\x7b"⟩, ⟨"x"⟩, ⟨";"⟩] =
      .error (.unclosedBlock "func") := by
    rw [parse_cons]
    rfl
  have hclosed : Derives (functionTokens "f" [] [⟨"x"⟩, ⟨";"⟩] ++ []) _ :=
    .function rfl (by simp) (.unit hx .nil) .nil
  refine ⟨((parse_append_of_endsUnit rfl _).1 _ hok).1 _ hx.parse,
    ((parse_append_of_endsUnit rfl _).1 _ hok).2 _ herror,
    (parse_append_of_endsUnit rfl _).2.1 _ herror (by simp), ?_⟩
  obtain ⟨opener, ho⟩ := (parse_append_of_endsUnit rfl [⟨"\x7d"⟩]).2.2 _ hopen ⟨_, hclosed.parse⟩
  exact ⟨opener, _, ho ▸ hopen, hclosed.parse⟩

end TinyScript
