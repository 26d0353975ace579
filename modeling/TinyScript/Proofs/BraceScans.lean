import Mathlib.Logic.Relation
import TinyScript.Proofs.PositionalParser
import TinyScript.Proofs.UnitBoundary
import TinyScript.Proofs.UnitErrors

/-!
Braces counted twice. A unit is cut off by counting braces from its start, and the block of a function
is found again by counting them from the block. The two counts agree, because no brace can stand in a
signature that was read. So only the last unit of a whole text can have a block that is left open, and
the bodies of functions can always be cut into units.
-/

namespace TinyScript

section Cuts

variable {first : Token} {ts unit rest : List Token}

theorem prepend_eq_ok {u : List Token} {cut : Except ParseError (List Token × List Token)}
    (h : prepend u cut = .ok (unit, rest)) : ∃ v, cut = .ok (v, rest) ∧ unit = u ++ v := by
  cases cut with
  | error e => cases h
  | ok pair =>
    obtain ⟨v, rest'⟩ := pair
    cases h
    exact ⟨v, rfl, rfl⟩

/-- A unit that is cut off inside of a block ends with the brace that closes it. -/
theorem scan_of_cutUnit {depth : Nat} (h : cutUnit first (depth + 1) ts = .ok (unit, rest)) :
    ∃ body, Bracket.brace.Scan depth body 0 ∧ unit = body ++ [Symbol.closeBrace.token] ∧
      ts = unit ++ rest := by
  induction ts generalizing depth unit with
  | nil => cases h
  | cons t ts ih =>
    -- a token that is passed comes before the rest of the unit, as it does in the scan
    have pass (d : Nat) (hscan : ∀ body, Bracket.brace.Scan d body 0 →
          Bracket.brace.Scan depth (t :: body) 0)
        (hd : prepend [t] (cutUnit first (d + 1) ts) = .ok (unit, rest)) :
        ∃ body, Bracket.brace.Scan depth body 0 ∧ unit = body ++ [Symbol.closeBrace.token] ∧
          t :: ts = unit ++ rest := by
      obtain ⟨v, hv, rfl⟩ := prepend_eq_ok hd
      obtain ⟨body, hbody, rfl, rfl⟩ := ih hv
      exact ⟨t :: body, hscan body hbody, rfl, rfl⟩
    rw [cutUnit, if_neg (by simp)] at h
    by_cases ho : t.is .openBrace = true
    · rw [if_pos ho] at h
      exact pass (depth + 1) (fun body => .opened ho) h
    · rw [if_neg ho] at h
      have ho : t.is Bracket.brace.opening = false := by simpa using ho
      by_cases hc : t.is .closeBrace = true
      · rw [if_pos hc, if_neg (Nat.succ_ne_zero depth)] at h
        cases depth with
        | zero =>
          cases h
          exact ⟨[], .nil 0, by rw [Token.eq_token hc]; rfl, rfl⟩
        | succ depth => exact pass depth (fun body => .closed ho hc) h
      · rw [if_neg hc] at h
        exact pass depth (fun body => .passed ho (by simpa using hc)) h

/-- From tokens whose blocks are all closed a unit can be cut off, and the same holds of what is left. -/
theorem cutUnit_of_scan (first : Token) {depth : Nat} (h : Bracket.brace.Scan depth ts 0) :
    ∃ unit rest, cutUnit first depth ts = .ok (unit, rest) ∧ Bracket.brace.Balanced rest := by
  induction ts generalizing depth with
  | nil =>
    cases h
    exact ⟨[], [], rfl, Bracket.balanced_nil⟩
  | cons t ts ih =>
    have pass {d : Nat} (hd : Bracket.brace.Scan d ts 0) :
        ∃ unit rest, prepend [t] (cutUnit first d ts) = .ok (unit, rest) ∧
          Bracket.brace.Balanced rest := by
      obtain ⟨unit, rest, hcut, hrest⟩ := ih hd
      exact ⟨t :: unit, rest, by rw [hcut]; rfl, hrest⟩
    cases h with
    | opened ho h =>
      have ho : t.is .openBrace = true := ho
      have hs : ¬ (t.is .semicolon && decide (depth = 0)) = true := by simp [Token.eq_token ho]
      rw [cutUnit, if_neg hs, if_pos ho]
      exact pass h
    | @closed depth _ _ _ ho hc h =>
      have ho : ¬ t.is .openBrace = true := by simpa using ho
      have hc : t.is .closeBrace = true := hc
      rw [cutUnit, if_neg (by simp), if_neg ho, if_pos hc, if_neg (Nat.succ_ne_zero depth)]
      cases depth with
      | zero => exact ⟨[t], ts, rfl, h⟩
      | succ depth => exact pass h
    | passed ho hc h =>
      have ho : ¬ t.is .openBrace = true := by simpa using ho
      have hc : ¬ t.is .closeBrace = true := by simpa using hc
      rw [cutUnit]
      by_cases hs : (t.is .semicolon && decide (depth = 0)) = true
      · have hd : depth = 0 := of_decide_eq_true (Bool.and_eq_true_iff.mp hs).2
        rw [hd] at h
        rw [if_pos hs]
        exact ⟨[], ts, rfl, h⟩
      · rw [if_neg hs, if_neg ho, if_neg hc]
        exact pass h

/-- Cutting off a unit fails at a brace that closes nothing, or because a block stays open. -/
theorem cutUnit_eq_error {depth : Nat} {e : ParseError} (h : cutUnit first depth ts = .error e) :
    e = .unclosedBlock first.text ∨ e = .unexpectedToken Symbol.closeBrace.text := by
  induction ts generalizing depth with
  | nil =>
    rw [cutUnit] at h
    split at h <;> cases h
    exact .inl rfl
  | cons t ts ih =>
    have pass {d : Nat} (hd : prepend [t] (cutUnit first d ts) = .error e) :
        e = .unclosedBlock first.text ∨ e = .unexpectedToken Symbol.closeBrace.text := by
      cases hc : cutUnit first d ts with
      | error e' =>
        rw [hc] at hd
        cases hd
        exact ih hc
      | ok pair =>
        rw [hc] at hd
        cases hd
    rw [cutUnit] at h
    split at h
    · cases h
    · split at h
      · exact pass h
      · split at h
        · rename_i hc
          split at h
          · cases h
            rw [Token.is_iff.mp hc]
            exact .inr rfl
          · split at h
            · cases h
            · exact pass h
        · exact pass h

/-- If tokens without braces and then an opening brace start a unit, the unit is those tokens and a
block, and nothing is dropped behind it. -/
theorem block_of_cutUnit {u inner : List Token} (hu : Inline u)
    (h : cutUnit first 0 ts = .ok (u ++ Symbol.openBrace.token :: inner, rest)) :
    ∃ body, Bracket.brace.Balanced body ∧ inner = body ++ [Symbol.closeBrace.token] ∧
      ts = u ++ Symbol.openBrace.token :: inner ++ rest := by
  obtain ⟨more, hts⟩ : ∃ more, ts = u ++ Symbol.openBrace.token :: (inner ++ more) := by
    rcases cutUnit_shape h with hs | ⟨hs, _⟩
    · exact ⟨Symbol.semicolon.token :: rest, by rw [hs]; simp⟩
    · exact ⟨rest, by rw [hs]; simp⟩
  have hopen : cutUnit first 0 (Symbol.openBrace.token :: (inner ++ more)) =
      prepend [Symbol.openBrace.token] (cutUnit first 1 (inner ++ more)) := by
    rw [cutUnit, if_neg (by simp), if_pos (by simp)]
    rfl
  rw [hts, cutUnit_inline first hu, hopen] at h
  obtain ⟨v, hv, hunit⟩ := prepend_eq_ok h
  obtain ⟨w, hw, rfl⟩ := prepend_eq_ok hv
  have hw' : inner = w := by simpa using hunit
  subst hw'
  obtain ⟨body, hbody, hinner, hmore⟩ := scan_of_cutUnit hw
  refine ⟨body, hbody, hinner, ?_⟩
  rw [hts, hmore]
  simp

end Cuts

namespace Header

theorem parameterList_failsInside (ts : List Token) : FailsInside (parameterList ts) := by
  unfold parameterList
  refine (expect_failsInside _ (by simp) _).bind fun inner _ => ?_
  split
  · exact .error (inside_unexpectedEnd (by simp))
  · exact (FailsInside.mapM fun piece _ => parseParameter_failsInside piece).bind fun _ _ => .ok _

/-- In a unit that was cut off, what follows a signature and an opening brace is a body and the brace
that closes it. -/
theorem block_of_unit {t first : Token} {ts tail inner rest : List Token} {name : String}
    {parameters : List String} (hc : cutUnit t 0 ts = .ok (first :: tail, rest))
    (hk : first.kind = .keyword .func) (hn : parseName .functionName tail.head? = .ok name)
    (hp : parameterList tail.tail = .ok (parameters, Symbol.openBrace.token :: inner)) :
    ∃ body, Bracket.brace.Balanced body ∧ inner = body ++ [Symbol.closeBrace.token] ∧
      ts = first :: tail ++ rest ∧ Header.parse tail = .ok ⟨name, parameters, body⟩ := by
  obtain ⟨hhead, hname⟩ := parseName_eq_ok hn
  obtain ⟨list, rfl⟩ := List.head?_eq_some_iff.mp hhead
  obtain ⟨hparameters, hlist⟩ := parameterList_eq_ok hp
  rw [List.tail_cons] at hlist
  have hunit : first :: ⟨name⟩ :: list =
      signatureTokens name parameters ++ Symbol.openBrace.token :: inner := by
    rw [Token.kind_eq_keyword_iff.mp hk, hlist, signatureTokens]
    simp
  rw [hunit] at hc
  obtain ⟨body, hbody, rfl, hts⟩ := block_of_cutUnit (inline_signatureTokens hname hparameters) hc
  refine ⟨body, hbody, rfl, by rw [hts, hunit], ?_⟩
  rw [Header.parse_eq, hn, hp]
  simp only [Except.bind, block_of_balanced name hbody]
  rfl

/-- A signature can be refused, but a block that follows one is never found open or with anything behind
it. -/
theorem parse_failsInside {t first : Token} {ts tail rest : List Token}
    (hc : cutUnit t 0 ts = .ok (first :: tail, rest)) (hk : first.kind = .keyword .func) :
    FailsInside (Header.parse tail) := by
  rw [Header.parse_eq]
  refine (parseName_failsInside (by simp) _).bind fun name hn => ?_
  refine (parameterList_failsInside _).bind fun list hl => ?_
  obtain ⟨parameters, after⟩ := list
  refine FailsInside.map ?_ _
  unfold block
  refine (expect_failsInside _ (by simp) _).bind fun inner hi => ?_
  have hopen := expect_eq_ok hi
  dsimp only at hopen
  subst hopen
  obtain ⟨body, hbody, rfl, _⟩ := block_of_unit hc hk hn hl
  rw [Bracket.split?_block hbody]
  exact .ok body

end Header

theorem Checked.sure_injective {α : Type} {x y : Except ParseError α} (h : sure x = sure y) : x = y :=
  Option.some.inj h

namespace Positional

/-- The unit that starts at a position. The next one starts at `next`. -/
def UnitAt (ts : List Token) (start : Nat) (unit : List Token) (next : Nat) : Prop :=
  nextUnit ts start = .sure (.ok (some (unit, next)))

def Follows (ts : List Token) (start next : Nat) : Prop :=
  ∃ unit, UnitAt ts start unit next

/-- Reading gets over a unit if there is nothing in it or it gives a node. -/
def Passes (ts : List Token) (start next : Nat) : Prop :=
  ∃ unit, UnitAt ts start unit next ∧ (unit = [] ∨ ∃ n, TinyScript.parseUnit unit = .ok n)

/-- Reading the tokens as a program comes to the unit that starts at a position. -/
def Reaches (ts : List Token) (start : Nat) : Prop :=
  Relation.ReflTransGen (Passes ts) 0 start

/-- While `ts` is read, the tokens `us` are read as a program: they are all of `ts`, or what the block of
a function holds that is defined in others of the kind. -/
inductive Reads (ts : List Token) : Nat → List Token → Prop where
  | whole : Reads ts 0 ts
  | body {nesting start next : Nat} {us tail : List Token} {first : Token} {header : Header}
      (h : Reads ts nesting us) (hs : Reaches us start) (hu : UnitAt us start (first :: tail) next)
      (hk : first.kind = .keyword .func) (hh : parseHeader tail = .sure (.ok header)) :
      Reads ts (nesting + 1) header.body

/-- Reading stops with an error at a unit: it cannot be cut off, it is no node, or it does not start with
the signature and the block of a function. What the block holds is a program of its own. -/
inductive FailsAt (ts : List Token) (start : Nat) (e : ParseError) : Prop where
  | cut (h : nextUnit ts start = .sure (.error e))
  | simple {first : Token} {tail : List Token} {next : Nat} (hu : UnitAt ts start (first :: tail) next)
      (hk : first.kind ≠ .keyword .func) (he : parseSimple (first :: tail) = .error e)
  | header {first : Token} {tail : List Token} {next : Nat} (hu : UnitAt ts start (first :: tail) next)
      (hk : first.kind = .keyword .func) (he : parseHeader tail = .sure (.error e))

section Units

variable {ts us unit tail : List Token} {start next nesting : Nat} {e : ParseError}

theorem UnitAt.exists_cut (h : UnitAt ts start unit next) :
    ∃ t rest, ts.drop start = t :: rest ∧
      cutUnit t 0 (t :: rest) = .ok (unit, ts.drop next) ∧
      next + (ts.drop next).length = ts.length := by
  cases hd : ts.drop start with
  | nil =>
    rw [UnitAt, nextUnit_of_drop_nil hd] at h
    cases Checked.sure_injective h
  | cons t rest =>
    rw [UnitAt, nextUnit_of_drop_cons hd] at h
    have h := Checked.sure_injective h
    cases hc : cutUnit t 0 (t :: rest) with
    | error e =>
      rw [hc] at h
      cases h
    | ok cut =>
      obtain ⟨unit', after⟩ := cut
      rw [hc] at h
      have hpair : (unit', ts.length - after.length) = (unit, next) :=
        Option.some.inj (Except.ok.inj h)
      cases hpair
      have hafter := drop_of_cutUnit (hd ▸ hc)
      have hshort := (length_cutUnit hc).2 (List.cons_ne_nil t rest)
      have hlen : (t :: rest).length ≤ ts.length := by
        rw [← hd, List.length_drop]
        exact Nat.sub_le _ _
      exact ⟨t, rest, rfl, by rw [hafter, hc], by rw [hafter]; omega⟩

theorem UnitAt.length_le (h : UnitAt ts start unit next) : unit.length ≤ ts.length := by
  obtain ⟨t, rest, hd, hc, _⟩ := h.exists_cut
  have hunit := (length_cutUnit hc).1
  have hle := congrArg List.length hd
  rw [List.length_drop] at hle
  omega

theorem exists_cut_of_nextUnit_eq_error (h : nextUnit ts start = .sure (.error e)) :
    ∃ t rest, ts.drop start = t :: rest ∧ cutUnit t 0 (t :: rest) = .error e := by
  cases hd : ts.drop start with
  | nil =>
    rw [nextUnit_of_drop_nil hd] at h
    cases Checked.sure_injective h
  | cons t rest =>
    rw [nextUnit_of_drop_cons hd] at h
    have h := Checked.sure_injective h
    refine ⟨t, rest, rfl, ?_⟩
    cases hc : cutUnit t 0 (t :: rest) with
    | error e' =>
      rw [hc] at h
      cases h
      rfl
    | ok cut =>
      rw [hc] at h
      cases h

/-- From a unit on, reading goes over it and then on from where the next one starts. -/
theorem UnitAt.parse_drop (h : UnitAt ts start unit next) :
    TinyScript.parse (ts.drop start) =
      if unit = [] then TinyScript.parse (ts.drop next)
      else (TinyScript.parseUnit unit).bind fun node =>
        (TinyScript.parse (ts.drop next)).map (node :: ·) := by
  obtain ⟨t, rest, hd, hc, _⟩ := h.exists_cut
  rw [hd, parse_cons, hc]
  rfl

theorem UnitAt.parse_error (h : UnitAt ts start unit next) (hne : unit ≠ [])
    (he : TinyScript.parseUnit unit = .error e) : TinyScript.parse (ts.drop start) = .error e := by
  rw [h.parse_drop, if_neg hne, he]
  rfl

theorem Passes.parse_error (h : Passes ts start next)
    (he : TinyScript.parse (ts.drop next) = .error e) :
    TinyScript.parse (ts.drop start) = .error e := by
  obtain ⟨unit, hu, rfl | ⟨n, hn⟩⟩ := h
  · rw [hu.parse_drop, if_pos rfl, he]
  · have hne : unit ≠ [] := by
      rintro rfl
      cases hn
    rw [hu.parse_drop, if_neg hne, hn, he]
    rfl

theorem Reaches.parse_error (h : Reaches ts start)
    (he : TinyScript.parse (ts.drop start) = .error e) : TinyScript.parse ts = .error e := by
  induction h with
  | refl => exact he
  | tail _ hp ih => exact ih (hp.parse_error he)

theorem parseUnit_func {first : Token} (hk : first.kind = .keyword .func) (tail : List Token) :
    TinyScript.parseUnit (first :: tail) = (Header.parse tail).bind fun header =>
      (TinyScript.parse header.body).map fun body =>
        .expr (.function ⟨header.name, header.parameters, body⟩) := by
  rw [TinyScript.parseUnit, if_pos hk]
  cases Header.parse tail with
  | error e => rfl
  | ok header => cases TinyScript.parse header.body <;> rfl

theorem parseHeader_eq_sure_iff {x : Except ParseError Header} :
    parseHeader tail = .sure x ↔ Header.parse tail = x := by
  rw [parseHeader_eq]
  exact ⟨Checked.sure_injective, congrArg Checked.sure⟩

/-- An error of a body is one of the whole. -/
theorem Reads.parse_error (h : Reads ts nesting us) (he : TinyScript.parse us = .error e) :
    TinyScript.parse ts = .error e := by
  induction h with
  | whole => exact he
  | body h hs hu hk hh ih =>
    apply ih
    apply hs.parse_error
    apply hu.parse_error (List.cons_ne_nil _ _)
    rw [parseUnit_func hk, parseHeader_eq_sure_iff.mp hh]
    simp only [Except.bind, he]
    rfl

theorem FailsAt.parse_error (h : FailsAt ts start e) :
    TinyScript.parse (ts.drop start) = .error e := by
  cases h with
  | cut h =>
    obtain ⟨t, rest, hd, hc⟩ := exists_cut_of_nextUnit_eq_error h
    rw [hd, parse_cons, hc]
    rfl
  | simple hu hk he =>
    apply hu.parse_error (List.cons_ne_nil _ _)
    rw [TinyScript.parseUnit, if_neg hk, he]
  | header hu hk he =>
    apply hu.parse_error (List.cons_ne_nil _ _)
    rw [parseUnit_func hk, parseHeader_eq_sure_iff.mp he]
    rfl

theorem Reads.trans {vs : List Token} {n : Nat} (h : Reads ts nesting us) (hv : Reads us n vs) :
    Reads ts (nesting + n) vs := by
  induction hv with
  | whole => exact h
  | body _ hs hu hk hh ih => exact .body ih hs hu hk hh

/-- If the units from one on give an error, reading comes to a unit that gives it. -/
theorem exists_unit_of_parse_error {rest : List Token} (hd : ts.drop start = rest)
    (h : TinyScript.parse rest = .error e) :
    ∃ stop, Relation.ReflTransGen (Passes ts) start stop ∧
      (nextUnit ts stop = .sure (.error e) ∨
        ∃ first tail next, UnitAt ts stop (first :: tail) next ∧
          TinyScript.parseUnit (first :: tail) = .error e) := by
  induction hl : rest.length using Nat.strongRecOn generalizing rest start with
  | _ n ih =>
    subst hl
    cases rest with
    | nil =>
      rw [parse_nil] at h
      cases h
    | cons t rest =>
      have hnext := nextUnit_of_drop_cons hd
      rcases parse_cases_error h with hc | ⟨unit, after, hc, hcases⟩
      · rw [hc] at hnext
        exact ⟨start, .refl, .inl hnext⟩
      · rw [hc] at hnext
        have hu : UnitAt ts start unit (ts.length - after.length) := hnext
        have hafter := drop_of_cutUnit (hd ▸ hc)
        have hshort := (length_cutUnit hc).2 (List.cons_ne_nil t rest)
        -- once a unit is passed, what fails is found behind it
        have hrest (hp : unit = [] ∨ ∃ n, TinyScript.parseUnit unit = .ok n)
            (he : TinyScript.parse after = .error e) := ih _ hshort hafter he rfl
        rcases hcases with ⟨hnil, he⟩ | ⟨hne, he⟩ | ⟨n, _, hn, he⟩
        · obtain ⟨stop, hstop, hfails⟩ := hrest (.inl hnil) he
          exact ⟨stop, .head ⟨unit, hu, .inl hnil⟩ hstop, hfails⟩
        · obtain ⟨first, tail, rfl⟩ := List.exists_cons_of_ne_nil hne
          exact ⟨start, .refl, .inr ⟨first, tail, _, hu, he⟩⟩
        · obtain ⟨stop, hstop, hfails⟩ := hrest (.inr ⟨n, hn⟩) he
          exact ⟨stop, .head ⟨unit, hu, .inr ⟨n, hn⟩⟩ hstop, hfails⟩

theorem UnitAt.failsAt {first : Token} (h : UnitAt ts start (first :: tail) next)
    (he : TinyScript.parseUnit (first :: tail) = .error e) :
    FailsAt ts start e ∨ first.kind = .keyword .func ∧
      ∃ header, Header.parse tail = .ok header ∧ TinyScript.parse header.body = .error e := by
  by_cases hk : first.kind = .keyword .func
  · rw [parseUnit_func hk] at he
    cases hh : Header.parse tail with
    | error e' =>
      rw [hh] at he
      cases he
      exact .inl (.header h hk (parseHeader_eq_sure_iff.mpr hh))
    | ok header =>
      refine .inr ⟨hk, header, rfl, ?_⟩
      rw [hh] at he
      cases hb : TinyScript.parse header.body with
      | error e' =>
        simp only [Except.bind, hb] at he
        cases he
        rfl
      | ok nodes =>
        simp only [Except.bind, hb] at he
        cases he
  · rw [TinyScript.parseUnit, if_neg hk] at he
    exact .inl (.simple h hk he)

/-- Reading fails with the error of the one unit at which it stops, in the whole or in the body of a
function. -/
theorem parse_eq_error_iff :
    TinyScript.parse ts = .error e ↔
      ∃ nesting us start, Reads ts nesting us ∧ Reaches us start ∧ FailsAt us start e := by
  constructor
  · intro h
    -- the body of a function is shorter than the tokens around it
    induction hl : ts.length using Nat.strongRecOn generalizing ts with
    | _ n ih =>
      subst hl
      obtain ⟨start, hs, hcut | ⟨first, tail, next, hu, he⟩⟩ :=
        exists_unit_of_parse_error List.drop_zero h
      · exact ⟨0, ts, start, .whole, hs, .cut hcut⟩
      · rcases hu.failsAt he with hfails | ⟨hk, header, hh, hb⟩
        · exact ⟨0, ts, start, .whole, hs, hfails⟩
        · have hlen : header.body.length < ts.length := by
            have hunit := hu.length_le
            have := Header.length_body hh
            rw [List.length_cons] at hunit
            omega
          obtain ⟨nesting, us, stop, hr, hstop, hfails⟩ := ih _ hlen hb rfl
          have hfirst : Reads ts 1 header.body :=
            .body .whole hs hu hk (parseHeader_eq_sure_iff.mpr hh)
          exact ⟨1 + nesting, us, stop, hfirst.trans hr, hstop, hfails⟩
  · rintro ⟨nesting, us, start, hr, hs, hfails⟩
    exact hr.parse_error (hs.parse_error hfails.parse_error)

/-- Behind the units that are passed, the blocks are still all closed. -/
theorem Reaches.balanced (h : Reaches us start) (hb : Bracket.brace.Balanced us) :
    Bracket.brace.Balanced (us.drop start) := by
  induction h with
  | refl => exact hb
  | tail _ hp ih =>
    obtain ⟨unit, hu, _⟩ := hp
    obtain ⟨t, rest, hd, hc, _⟩ := hu.exists_cut
    rw [hd] at ih
    obtain ⟨unit', rest', hcut, hrest⟩ := cutUnit_of_scan t ih
    rw [hc] at hcut
    cases hcut
    exact hrest

theorem nextUnit_of_balanced (hb : Bracket.brace.Balanced (us.drop start)) :
    ∃ found, nextUnit us start = .sure (.ok found) := by
  cases hd : us.drop start with
  | nil => exact ⟨none, nextUnit_of_drop_nil hd⟩
  | cons t rest =>
    rw [hd] at hb
    obtain ⟨unit, after, hcut, _⟩ := cutUnit_of_scan t hb
    exact ⟨_, by rw [nextUnit_of_drop_cons hd, hcut]; rfl⟩

theorem Reads.balanced (h : Reads ts (nesting + 1) us) : Bracket.brace.Balanced us := by
  cases h with
  | body _ _ _ _ hh => exact (Header.parse_eq_ok (parseHeader_eq_sure_iff.mp hh)).2.2.1

theorem FailsAt.inside_or_cut (h : FailsAt ts start e) :
    e.Inside ∨ nextUnit ts start = .sure (.error e) := by
  cases h with
  | cut h => exact .inr h
  | simple _ _ he => exact .inl (parseSimple_failsInside _ _ e he)
  | header hu hk he =>
    obtain ⟨t, rest, _, hc, _⟩ := hu.exists_cut
    exact .inl (Header.parse_failsInside hc hk e (parseHeader_eq_sure_iff.mp he))

/-- In the body of a function units can always be cut off, so an error that is not about what a unit holds
is about cutting off a unit of the whole. -/
theorem inside_or_cut_of_parse_error (h : TinyScript.parse ts = .error e) :
    e.Inside ∨ ∃ start, Reaches ts start ∧ nextUnit ts start = .sure (.error e) := by
  obtain ⟨nesting, us, start, hr, hs, hfails⟩ := parse_eq_error_iff.mp h
  rcases hfails.inside_or_cut with he | hcut
  · exact .inl he
  · cases nesting with
    | zero =>
      cases hr
      exact .inr ⟨start, hs, hcut⟩
    | succ nesting =>
      obtain ⟨found, hfound⟩ := nextUnit_of_balanced (hs.balanced hr.balanced)
      rw [hfound] at hcut
      cases Checked.sure_injective hcut

theorem inside_of_balanced (hb : Bracket.brace.Balanced us) (h : TinyScript.parse us = .error e) :
    e.Inside := by
  rcases inside_or_cut_of_parse_error h with he | ⟨start, hs, hcut⟩
  · exact he
  · obtain ⟨found, hfound⟩ := nextUnit_of_balanced (hs.balanced hb)
    rw [hfound] at hcut
    cases Checked.sure_injective hcut

theorem Follows.lt (h : Follows ts start next) : start < next := by
  obtain ⟨unit, hu⟩ := h
  obtain ⟨t, rest, hd, hc, hlen⟩ := hu.exists_cut
  have hshort := (length_cutUnit hc).2 (List.cons_ne_nil t rest)
  rw [← hd] at hshort
  simp only [List.length_drop] at hshort hlen
  omega

theorem le_of_follows (h : Relation.ReflTransGen (Follows ts) start next) : start ≤ next := by
  induction h with
  | refl => exact Nat.le_refl start
  | tail _ hf ih => exact ih.trans (Nat.le_of_lt hf.lt)

theorem Follows.unique {other : Nat} (h : Follows ts start next) (h' : Follows ts start other) :
    next = other := by
  obtain ⟨unit, hu⟩ := h
  obtain ⟨unit', hu'⟩ := h'
  have hpair := Checked.sure_injective (hu.symm.trans hu')
  cases hpair
  rfl

/-- Where no unit can be cut off, there is no unit behind. -/
theorem le_of_nextUnit_eq_error {other : Nat} (hs : Relation.ReflTransGen (Follows ts) 0 start)
    (he : nextUnit ts start = .sure (.error e)) (ho : Relation.ReflTransGen (Follows ts) 0 other) :
    other ≤ start := by
  have hunique : Relator.RightUnique (Follows ts) := fun _ _ _ => Follows.unique
  rcases Relation.ReflTransGen.total_of_right_unique hunique hs ho with h | h
  · rcases Relation.ReflTransGen.cases_head h with rfl | ⟨next, ⟨unit, hu⟩, _⟩
    · exact Nat.le_refl _
    · cases Checked.sure_injective (he.symm.trans hu)
  · exact le_of_follows h

theorem Reaches.follows (h : Reaches ts start) : Relation.ReflTransGen (Follows ts) 0 start := by
  induction h with
  | refl => exact .refl
  | tail _ hp ih =>
    obtain ⟨unit, hu, _⟩ := hp
    exact ih.tail ⟨unit, hu⟩

/-- The brace at `close` is found for the one at `block`. It is the last token of the unit from `start`
to `next`, of which `tail` is all but the first token, and its partner's block is closed in itself. -/
structure ClosesUnit (tail : List Token) (start next block close : Nat) (body : List Token) : Prop where
  found : findClosing .brace tail block = some (some close)
  is_last : close + 1 = tail.length
  before_next : start + 1 + close + 1 = next
  slice : slice? tail (block + 1) close = some body
  balanced : Bracket.brace.Balanced body

/-- Parameters that are read by positions end where the list of them does. -/
theorem parameterList_of_parseParameters {n : Token} {list : List Token} {parameters : List String}
    {block : Nat} (h : parseParameters (n :: list) = .sure (.ok (parameters, block))) :
    Header.parameterList list = .ok (parameters, (n :: list).drop block) := by
  obtain ⟨block', hparameters, hblock⟩ := exists_parseParameters_eq n list
  have hpair := Checked.sure_injective (hparameters.symm.trans h)
  cases hl : Header.parameterList list with
  | error e =>
    rw [hl] at hpair
    cases hpair
  | ok pair =>
    rw [hl] at hpair
    have hsame : (pair.1, block') = (parameters, block) := Except.ok.inj hpair
    cases hsame
    rw [hblock _ hl]

/-- The search for the closing brace stops where the unit does. -/
theorem exists_closesUnit {first : Token} {name : String} {parameters : List String} {block : Nat}
    (hu : UnitAt us start (first :: tail) next) (hk : first.kind = .keyword .func)
    (hn : parseName .functionName tail[0]? = .ok name)
    (hp : parseParameters tail = .sure (.ok (parameters, block)))
    (hb : tail[block]? = some Symbol.openBrace.token) :
    ∃ close body, ClosesUnit tail start next block close body ∧
      parseHeader tail = .sure (.ok ⟨name, parameters, body⟩) := by
  rw [← List.head?_eq_getElem?] at hn
  obtain ⟨list, rfl⟩ := List.head?_eq_some_iff.mp (parseName_eq_ok hn).1
  have hlist := parameterList_of_parseParameters hp
  rw [← List.head?_drop] at hb
  obtain ⟨inner, hdrop⟩ := List.head?_eq_some_iff.mp hb
  rw [hdrop] at hlist
  obtain ⟨t, rest, hd, hc, hnext⟩ := hu.exists_cut
  obtain ⟨body, hbody, rfl, hts, hparse⟩ := Header.block_of_unit hc hk hn hlist
  have ht : Symbol.openBrace.token.is Bracket.brace.opening = true := rfl
  have hcloses := closes_of_split? hdrop ht (Bracket.split?_block hbody)
  -- the block, the brace that closes it and what was before them are the whole unit
  have htail := congrArg List.length hdrop
  have hunit := congrArg List.length (hd.trans hts)
  simp only [List.length_drop, List.length_cons, List.length_append,
    List.length_nil] at htail hunit hnext
  refine ⟨_, body, ⟨hcloses.found, ?_, ?_, hcloses.slice_inside, hbody⟩, ?_⟩
  · rw [List.length_cons]
    omega
  · omega
  · exact parseHeader_eq_sure_iff.mpr hparse

end Units

end Positional

/-- Counting braces from the start of a unit and counting them from its block comes to the same end.
Wherever a function is read, if its parameters are read and a brace is next, the brace that closes the
block is the last token of the unit, so the header is read and the body is closed in itself. A body can
always be cut into units, so reading it leaves no block open; there is always a unit to read; and a
block that is left open is told by the first token of the last unit of the whole. -/
theorem brace_scans_agree (ts : List Token) :
    (∀ nesting us start next first tail name parameters block,
      Positional.Reads ts nesting us → Positional.Reaches us start →
      Positional.UnitAt us start (first :: tail) next → first.kind = .keyword .func →
      parseName .functionName tail[0]? = .ok name →
      Positional.parseParameters tail = .sure (.ok (parameters, block)) →
      tail[block]? = some Symbol.openBrace.token →
      ∃ close body, Positional.ClosesUnit tail start next block close body ∧
        Positional.parseHeader tail = .sure (.ok ⟨name, parameters, body⟩)) ∧
    (∀ nesting us, Positional.Reads ts (nesting + 1) us → Bracket.brace.Balanced us ∧
      (∀ start, Positional.Reaches us start →
        ∃ found, Positional.nextUnit us start = .sure (.ok found)) ∧
      ∀ opener, parse us ≠ .error (.unclosedBlock opener)) ∧
    parse ts ≠ .error (.unexpectedEnd .statement) ∧
    ∀ opener, parse ts = .error (.unclosedBlock opener) →
      ∃ start first, Positional.Reaches ts start ∧ ts[start]? = some first ∧ first.text = opener ∧
        Positional.nextUnit ts start = .sure (.error (.unclosedBlock opener)) ∧
        ∀ other, Relation.ReflTransGen (Positional.Follows ts) 0 other → other ≤ start := by
  refine ⟨?_, ?_, ?_, ?_⟩
  · intro nesting us start next first tail name parameters block _ _ hu hk hn hp hb
    exact Positional.exists_closesUnit hu hk hn hp hb
  · intro nesting us hr
    refine ⟨hr.balanced, fun start hs => ?_, fun opener h => ?_⟩
    · exact Positional.nextUnit_of_balanced (hs.balanced hr.balanced)
    · exact (Positional.inside_of_balanced hr.balanced h).ne_open opener rfl
  · intro h
    rcases Positional.inside_or_cut_of_parse_error h with he | ⟨start, _, hcut⟩
    · exact he.ne_end rfl
    · obtain ⟨t, rest, _, hc⟩ := Positional.exists_cut_of_nextUnit_eq_error hcut
      rcases cutUnit_eq_error hc with he | he <;> cases he
  · intro opener h
    rcases Positional.inside_or_cut_of_parse_error h with he | ⟨start, hs, hcut⟩
    · exact absurd rfl (he.ne_open opener)
    · obtain ⟨t, rest, hd, hc⟩ := Positional.exists_cut_of_nextUnit_eq_error hcut
      have ht : ts[start]? = some t := by
        rw [← List.head?_drop, hd]
        rfl
      refine ⟨start, t, hs, ht, ?_, hcut, fun other => ?_⟩
      · rcases cutUnit_eq_error hc with he | he
        · cases he
          rfl
        · cases he
      · exact Positional.le_of_nextUnit_eq_error hs.follows hcut

/-- With a function in the body of another one, the brace that closes the inner block is passed. -/
theorem brace_scans_agree_nested :
    ∃ body, Positional.ClosesUnit
      (["f", "(", "a", ")", "\x7b", "func", "g", "(", ")", "\x7b", "a", "\x7d", "\x7d"].map Token.mk)
      0 14 4 12 body := by
  obtain ⟨close, body, h, _⟩ := (brace_scans_agree
    (["func", "f", "(", "a", ")", "\x7b", "func", "g", "(", ")", "\x7b", "a", "\x7d", "\x7d", "f"].map
      Token.mk)).1 0 _ 0 14 ⟨"func"⟩
    (["f", "(", "a", ")", "\x7b", "func", "g", "(", ")", "\x7b", "a", "\x7d", "\x7d"].map Token.mk)
    "f" ["a"] 4 .whole .refl rfl rfl rfl rfl rfl
  have hclose : close = 12 := Nat.succ.inj h.is_last
  exact ⟨body, hclose ▸ h⟩

end TinyScript
