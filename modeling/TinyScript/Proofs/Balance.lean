import TinyScript.Parse.Bracket
import TinyScript.Proofs.Kinds

/-!
What the cuts at brackets and commas find. A scan that counts brackets passes over balanced tokens
as if they were not there, so a cut at a bracket or comma is found exactly where what lies before
it is balanced.
-/

namespace TinyScript

namespace Bracket

@[simp]
theorem paren_opening : paren.opening = .openParen :=
  rfl

@[simp]
theorem paren_closing : paren.closing = .closeParen :=
  rfl

@[simp]
theorem brace_opening : brace.opening = .openBrace :=
  rfl

@[simp]
theorem brace_closing : brace.closing = .closeBrace :=
  rfl

theorem paren_distinct : paren.opening ≠ paren.closing := by
  simp

theorem brace_distinct : brace.opening ≠ brace.closing := by
  simp

/-- Reading the tokens with `depth` brackets open ends with `d` open. None is closed on the way
that was not open. -/
inductive Scan (b : Bracket) : Nat → List Token → Nat → Prop where
  | nil (depth : Nat) : Scan b depth [] depth
  | opened {depth d : Nat} {t : Token} {ts : List Token} (ho : t.is b.opening = true)
      (h : Scan b (depth + 1) ts d) : Scan b depth (t :: ts) d
  | closed {depth d : Nat} {t : Token} {ts : List Token} (ho : t.is b.opening = false)
      (hc : t.is b.closing = true) (h : Scan b depth ts d) : Scan b (depth + 1) (t :: ts) d
  | passed {depth d : Nat} {t : Token} {ts : List Token} (ho : t.is b.opening = false)
      (hc : t.is b.closing = false) (h : Scan b depth ts d) : Scan b depth (t :: ts) d

/-- Every bracket among the tokens has its partner among them. -/
def Balanced (b : Bracket) (ts : List Token) : Prop :=
  b.Scan 0 ts 0

variable {b : Bracket}

theorem Scan.append {depth d e : Nat} {u v : List Token} (hu : b.Scan depth u d)
    (hv : b.Scan d v e) : b.Scan depth (u ++ v) e := by
  induction hu with
  | nil depth => exact hv
  | opened ho _ ih => exact .opened ho (ih hv)
  | closed ho hc _ ih => exact .closed ho hc (ih hv)
  | passed ho hc _ ih => exact .passed ho hc (ih hv)

/-- Brackets that stay open all the way change nothing else. -/
theorem Scan.add {depth d : Nat} {u : List Token} (h : b.Scan depth u d) (k : Nat) :
    b.Scan (depth + k) u (d + k) := by
  induction h with
  | nil depth => exact .nil _
  | @opened depth d t ts ho _ ih =>
    rw [Nat.add_right_comm] at ih
    exact .opened ho ih
  | @closed depth d t ts ho hc _ ih =>
    rw [Nat.add_right_comm]
    exact .closed ho hc ih
  | passed ho hc _ ih => exact .passed ho hc ih

theorem Balanced.scan {u : List Token} (h : b.Balanced u) (depth : Nat) :
    b.Scan depth u depth := by
  have hs := Scan.add h depth
  rwa [Nat.zero_add] at hs

theorem balanced_nil : b.Balanced [] :=
  .nil 0

theorem Balanced.append {u v : List Token} (hu : b.Balanced u) (hv : b.Balanced v) :
    b.Balanced (u ++ v) :=
  Scan.append hu hv

/-- Tokens without brackets are balanced. -/
theorem balanced_of_forall {u : List Token}
    (h : ∀ t ∈ u, t.is b.opening = false ∧ t.is b.closing = false) : b.Balanced u := by
  induction u with
  | nil => exact balanced_nil
  | cons t u ih =>
    obtain ⟨ho, hc⟩ := h t (by simp)
    exact .passed ho hc (ih fun t ht => h t (by simp [ht]))

theorem balanced_singleton {t : Token} (ho : t.is b.opening = false)
    (hc : t.is b.closing = false) : b.Balanced [t] :=
  .passed ho hc (.nil 0)

/-- Putting balanced tokens between brackets keeps them balanced. -/
theorem Balanced.enclose {u : List Token} (hb : b.opening ≠ b.closing) (h : b.Balanced u) :
    b.Balanced (b.opening.token :: (u ++ [b.closing.token])) := by
  refine .opened (by simp) ((h.scan 1).append ?_)
  exact .closed (by simp [hb.symm]) (by simp) (.nil 0)

/-- A cut behind scanned tokens is the cut behind them, made with what is open there. -/
theorem Scan.split? {depth d : Nat} {u : List Token} (h : b.Scan depth u d) (ts : List Token) :
    b.split? depth (u ++ ts) =
      (b.split? d ts).map fun (inside, after) => (u ++ inside, after) := by
  induction h with
  | nil depth => simp
  | opened ho _ ih =>
    rw [List.cons_append, Bracket.split?, if_pos ho, ih, Option.map_map]
    rfl
  | closed ho hc _ ih =>
    rw [List.cons_append, Bracket.split?, if_neg (by simp [ho]), if_pos hc, if_neg (by simp),
      Nat.add_sub_cancel, ih, Option.map_map]
    rfl
  | passed ho hc _ ih =>
    rw [List.cons_append, Bracket.split?, if_neg (by simp [ho]), if_neg (by simp [hc]), ih,
      Option.map_map]
    rfl

/-- What a cut leaves before the closing bracket closes all that is open and no more. -/
theorem scan_of_split? {depth : Nat} {ts inside after : List Token}
    (h : b.split? depth ts = some (inside, after)) :
    b.Scan depth inside 0 ∧ ts = inside ++ b.closing.token :: after := by
  induction ts generalizing depth inside with
  | nil => cases h
  | cons t ts ih =>
    rw [split?] at h
    split at h
    · rename_i ho
      obtain ⟨⟨i, a⟩, hs, he⟩ := Option.map_eq_some_iff.mp h
      cases he
      obtain ⟨hi, rfl⟩ := ih hs
      exact ⟨.opened ho hi, rfl⟩
    · rename_i ho
      have ho : t.is b.opening = false := by simpa using ho
      split at h
      · rename_i hc
        cases depth with
        | zero =>
          cases h
          exact ⟨.nil 0, by rw [Token.eq_token hc]; rfl⟩
        | succ depth =>
          obtain ⟨⟨i, a⟩, hs, he⟩ := Option.map_eq_some_iff.mp h
          cases he
          obtain ⟨hi, rfl⟩ := ih hs
          exact ⟨.closed ho hc hi, rfl⟩
      · rename_i hc
        obtain ⟨⟨i, a⟩, hs, he⟩ := Option.map_eq_some_iff.mp h
        cases he
        obtain ⟨hi, rfl⟩ := ih hs
        exact ⟨.passed ho (by simpa using hc) hi, rfl⟩

/-- The cut behind an opening bracket falls where the tokens before it are balanced. -/
theorem split?_eq_some_iff (hb : b.opening ≠ b.closing) {ts inside after : List Token} :
    b.split? 0 ts = some (inside, after) ↔
      b.Balanced inside ∧ ts = inside ++ b.closing.token :: after := by
  constructor
  · exact scan_of_split?
  · rintro ⟨hi, rfl⟩
    rw [Scan.split? hi, split?]
    simp [hb.symm]

end Bracket

/-- Pieces with a comma between any two. -/
def joinCommas (pieces : List (List Token)) : List Token :=
  List.intercalate [Symbol.comma.token] pieces

@[simp]
theorem joinCommas_nil : joinCommas [] = [] :=
  rfl

@[simp]
theorem joinCommas_singleton (piece : List Token) : joinCommas [piece] = piece :=
  List.intercalate_singleton

@[simp]
theorem joinCommas_cons_cons (first second : List Token) (pieces : List (List Token)) :
    joinCommas (first :: second :: pieces) =
      first ++ Symbol.comma.token :: joinCommas (second :: pieces) := by
  simp [joinCommas]

theorem mem_joinCommas {t : Token} {piece : List Token} {pieces : List (List Token)}
    (hp : piece ∈ pieces) (ht : t ∈ piece) : t ∈ joinCommas pieces := by
  induction pieces with
  | nil => cases hp
  | cons first pieces ih =>
    cases pieces with
    | nil =>
      cases List.mem_singleton.mp hp
      rwa [joinCommas_singleton]
    | cons second pieces =>
      rw [joinCommas_cons_cons]
      rcases List.mem_cons.mp hp with rfl | hp
      · exact List.mem_append_left _ ht
      · exact List.mem_append_right _ (List.mem_cons_of_mem _ (ih hp))

/-- A token in front of the first piece is a token in front of all. -/
theorem joinCommas_extendFirst (t : Token) (pieces : List (List Token)) :
    joinCommas (extendFirst t pieces) = t :: joinCommas pieces := by
  match pieces with
  | [] => simp [extendFirst]
  | [piece] => simp [extendFirst]
  | first :: second :: pieces => simp [extendFirst]

theorem extendFirst_ne_nil (t : Token) (pieces : List (List Token)) :
    extendFirst t pieces ≠ [] := by
  cases pieces <;> simp [extendFirst]

theorem commaPieces_ne_nil (depth : Nat) (ts : List Token) : commaPieces depth ts ≠ [] := by
  cases ts with
  | nil => simp [commaPieces]
  | cons t ts =>
    rw [commaPieces]
    split
    · exact extendFirst_ne_nil _ _
    · split
      · exact extendFirst_ne_nil _ _
      · split
        · simp
        · exact extendFirst_ne_nil _ _

/-- Cutting at commas loses nothing but the commas. -/
theorem joinCommas_commaPieces (depth : Nat) (ts : List Token) :
    joinCommas (commaPieces depth ts) = ts := by
  induction ts generalizing depth with
  | nil => simp [commaPieces]
  | cons t ts ih =>
    rw [commaPieces]
    split
    · rw [joinCommas_extendFirst, ih]
    · split
      · rw [joinCommas_extendFirst, ih]
      · split
        · rename_i hc
          have ht : t = Symbol.comma.token := Token.eq_token (Bool.and_eq_true_iff.mp hc).1
          obtain ⟨first, pieces, hp⟩ := List.exists_cons_of_ne_nil (commaPieces_ne_nil 0 ts)
          have hj := ih 0
          rw [hp] at hj ⊢
          rw [joinCommas_cons_cons, hj, ht, List.nil_append]
        · rw [joinCommas_extendFirst, ih]

theorem joinCommas_splitArguments (ts : List Token) : joinCommas (splitArguments ts) = ts := by
  unfold splitArguments
  split
  · rename_i he
    rw [List.isEmpty_iff.mp he, joinCommas_nil]
  · exact joinCommas_commaPieces 0 ts

/-- The number of commas where no parenthesis is open. -/
def outerCommas (depth : Nat) : List Token → Nat
  | [] => 0
  | t :: ts =>
    if t.is .openParen then outerCommas (depth + 1) ts
    else if t.is .closeParen then outerCommas (depth - 1) ts
    else if t.is .comma && depth = 0 then outerCommas 0 ts + 1
    else outerCommas depth ts

/-- Tokens that can be an argument: no cut at a comma or parenthesis falls inside. -/
structure Argument (ts : List Token) : Prop where
  balanced : Bracket.paren.Balanced ts
  whole : outerCommas 0 ts = 0

theorem outerCommas_append {depth d : Nat} {u : List Token} (h : Bracket.paren.Scan depth u d)
    (v : List Token) : outerCommas depth (u ++ v) = outerCommas depth u + outerCommas d v := by
  induction h with
  | nil depth => simp [outerCommas]
  | opened ho _ ih =>
    rw [Bracket.paren_opening] at ho
    simp [outerCommas, ho, ih]
  | closed ho hc _ ih =>
    rw [Bracket.paren_opening] at ho
    rw [Bracket.paren_closing] at hc
    simp [outerCommas, ho, hc, ih]
  | @passed depth d t ts ho hc _ ih =>
    rw [Bracket.paren_opening] at ho
    rw [Bracket.paren_closing] at hc
    by_cases hm : t.is .comma = true ∧ depth = 0
    · obtain ⟨hm, rfl⟩ := hm
      simp [outerCommas, ho, hc, hm, ih]
      omega
    · simp [outerCommas, ho, hc, hm, ih]

/-- No comma is outside of a parenthesis that stays open. -/
theorem outerCommas_succ {depth d : Nat} {u : List Token} (h : Bracket.paren.Scan depth u d) :
    outerCommas (depth + 1) u = 0 := by
  induction h with
  | nil depth => rfl
  | opened ho _ ih =>
    rw [outerCommas, if_pos (by simpa using ho), ih]
  | closed ho hc _ ih =>
    rw [outerCommas, if_neg (by simpa using ho), if_pos (by simpa using hc)]
    exact ih
  | passed ho hc _ ih =>
    rw [outerCommas, if_neg (by simpa using ho), if_neg (by simpa using hc), if_neg (by simp), ih]

theorem foldr_extendFirst (u first : List Token) (pieces : List (List Token)) :
    u.foldr extendFirst (first :: pieces) = (u ++ first) :: pieces := by
  induction u with
  | nil => rfl
  | cons t u ih => rw [List.foldr_cons, ih, extendFirst, List.cons_append]

theorem commaPieces_append {depth d : Nat} {u : List Token} (h : Bracket.paren.Scan depth u d)
    (hw : outerCommas depth u = 0) (v : List Token) :
    commaPieces depth (u ++ v) = u.foldr extendFirst (commaPieces d v) := by
  induction h with
  | nil depth => rfl
  | opened ho _ ih =>
    rw [outerCommas, if_pos (by simpa using ho)] at hw
    rw [List.cons_append, commaPieces, if_pos (by simpa using ho), ih hw, List.foldr_cons]
  | closed ho hc _ ih =>
    rw [outerCommas, if_neg (by simpa using ho), if_pos (by simpa using hc)] at hw
    rw [List.cons_append, commaPieces, if_neg (by simpa using ho), if_pos (by simpa using hc),
      List.foldr_cons]
    exact congrArg _ (ih hw)
  | passed ho hc _ ih =>
    rw [outerCommas, if_neg (by simpa using ho), if_neg (by simpa using hc)] at hw
    split at hw
    · cases hw
    · rename_i hm
      rw [List.cons_append, commaPieces, if_neg (by simpa using ho), if_neg (by simpa using hc),
        if_neg hm, ih hw, List.foldr_cons]

/-- Arguments joined by commas are cut apart again. -/
theorem commaPieces_joinCommas {first : List Token} {pieces : List (List Token)}
    (h : ∀ piece ∈ first :: pieces, Argument piece) :
    commaPieces 0 (joinCommas (first :: pieces)) = first :: pieces := by
  induction pieces generalizing first with
  | nil =>
    have hf := h first (by simp)
    have hc := commaPieces_append hf.balanced hf.whole []
    rw [List.append_nil] at hc
    rw [joinCommas_singleton, hc, commaPieces, foldr_extendFirst, List.append_nil]
  | cons second pieces ih =>
    have hf := h first (by simp)
    have hrest : commaPieces 0 (joinCommas (second :: pieces)) = second :: pieces :=
      ih fun piece hp => h piece (List.mem_cons_of_mem _ hp)
    rw [joinCommas_cons_cons, commaPieces_append hf.balanced hf.whole, commaPieces]
    simp only [Symbol.token_is, reduceCtorEq, decide_false, Bool.false_eq_true, ↓reduceIte,
      decide_true, Bool.and_self]
    rw [hrest, foldr_extendFirst, List.append_nil]

/-- Nothing at all would be no argument, so a single one has to hold something. -/
theorem splitArguments_joinCommas {pieces : List (List Token)}
    (h : ∀ piece ∈ pieces, Argument piece) (hne : ∀ piece ∈ pieces, piece ≠ []) :
    splitArguments (joinCommas pieces) = pieces := by
  cases pieces with
  | nil => rfl
  | cons first pieces =>
    have hj : joinCommas (first :: pieces) ≠ [] := by
      have hf := hne first (by simp)
      cases pieces with
      | nil => rwa [joinCommas_singleton]
      | cons second pieces => simp [hf]
    rw [splitArguments, if_neg (by simpa using hj)]
    exact commaPieces_joinCommas h

/-- A token that no cut looks at is an argument by itself. -/
theorem argument_singleton {t : Token} (ho : t.is .openParen = false)
    (hc : t.is .closeParen = false) (hm : t.is .comma = false) : Argument [t] :=
  ⟨Bracket.balanced_singleton ho hc, by simp [outerCommas, ho, hc, hm]⟩

theorem Argument.append {u v : List Token} (hu : Argument u) (hv : Argument v) :
    Argument (u ++ v) :=
  ⟨hu.balanced.append hv.balanced, by
    rw [outerCommas_append hu.balanced, hu.whole, hv.whole]⟩

theorem balanced_joinCommas {pieces : List (List Token)}
    (h : ∀ piece ∈ pieces, Bracket.paren.Balanced piece) :
    Bracket.paren.Balanced (joinCommas pieces) := by
  induction pieces with
  | nil => exact Bracket.balanced_nil
  | cons first pieces ih =>
    have hf := h first (by simp)
    have hrest := ih fun piece hp => h piece (List.mem_cons_of_mem _ hp)
    cases pieces with
    | nil => rwa [joinCommas_singleton]
    | cons second pieces =>
      have hm : Bracket.paren.Balanced [Symbol.comma.token] :=
        Bracket.balanced_singleton (by simp) (by simp)
      rw [joinCommas_cons_cons]
      exact hf.append (hm.append hrest)

/-- Inside parentheses commas do not count. -/
theorem Bracket.Balanced.argument {u : List Token} (h : Bracket.paren.Balanced u) :
    Argument (Symbol.openParen.token :: (u ++ [Symbol.closeParen.token])) := by
  refine ⟨h.enclose Bracket.paren_distinct, ?_⟩
  rw [outerCommas, if_pos (by simp), outerCommas_append (h.scan 1), outerCommas_succ h]
  simp [outerCommas]

end TinyScript
