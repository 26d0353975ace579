import TinyScript.Parse.Program

/-!
Which errors the tokens of a unit can give. Reading an expression, a declaration or a signature never
says that a block is left open, nor that there is no unit to read.
-/

namespace TinyScript

/-- An error about what a unit holds. -/
structure ParseError.Inside (e : ParseError) : Prop where
  ne_end : e ≠ .unexpectedEnd .statement
  ne_open : ∀ opener, e ≠ .unclosedBlock opener

/-- If this fails, then with an error about what a unit holds. -/
def FailsInside {α : Type} (x : Except ParseError α) : Prop :=
  ∀ e, x = .error e → e.Inside

namespace FailsInside

variable {α β : Type}

theorem ok (a : α) : FailsInside (.ok a) := by
  intro e h
  cases h

theorem error {e : ParseError} (h : e.Inside) : FailsInside (.error e : Except ParseError α) := by
  intro e' h'
  cases h'
  exact h

theorem bind {x : Except ParseError α} {f : α → Except ParseError β} (hx : FailsInside x)
    (hf : ∀ a, x = .ok a → FailsInside (f a)) : FailsInside (x.bind f) := by
  intro e h
  cases hc : x with
  | error e' =>
    rw [hc] at h
    cases h
    exact hx e hc
  | ok a =>
    rw [hc] at h
    exact hf a hc e h

theorem map {x : Except ParseError α} (hx : FailsInside x) (f : α → β) : FailsInside (x.map f) := by
  intro e h
  cases hc : x with
  | error e' =>
    rw [hc] at h
    cases h
    exact hx e hc
  | ok a =>
    rw [hc] at h
    cases h

theorem mapM {f : α → Except ParseError β} {xs : List α} (h : ∀ x ∈ xs, FailsInside (f x)) :
    FailsInside (xs.mapM f) := by
  induction xs with
  | nil => exact ok []
  | cons x xs ih =>
    obtain ⟨hx, hxs⟩ := List.forall_mem_cons.mp h
    rw [List.mapM_cons]
    exact hx.bind fun _ _ => (ih hxs).bind fun _ _ => ok _

end FailsInside

theorem inside_unexpectedToken (token : String) : (ParseError.unexpectedToken token).Inside :=
  ⟨by simp, by simp⟩

theorem inside_unexpectedEnd {part : Part} (h : part ≠ .statement) :
    (ParseError.unexpectedEnd part).Inside :=
  ⟨by simpa using h, by simp⟩

theorem parseName_failsInside {part : Part} (h : part ≠ .statement) (t? : Option Token) :
    FailsInside (parseName part t?) := by
  unfold parseName
  split
  · exact .error (inside_unexpectedEnd h)
  · split
    · exact .ok _
    · exact .error ⟨by simp, by simp⟩

theorem expect_failsInside (s : Symbol) {part : Part} (h : part ≠ .statement) (ts : List Token) :
    FailsInside (expect s part ts) := by
  unfold expect
  split
  · exact .error (inside_unexpectedEnd h)
  · split
    · exact .ok _
    · exact .error (inside_unexpectedToken _)

theorem parseParameter_failsInside (ts : List Token) : FailsInside (parseParameter ts) := by
  unfold parseParameter
  split
  · exact .error (inside_unexpectedEnd (by simp))
  · exact parseName_failsInside (by simp) _
  · exact .error (inside_unexpectedToken _)

theorem parseValue_failsInside (t : Token) : FailsInside (parseValue t) := by
  unfold parseValue
  split
  · exact .ok _
  · exact .ok _
  · exact .ok _
  · exact .error (inside_unexpectedToken _)

theorem splitOperand_failsInside (ts : List Token) : FailsInside (splitOperand ts) := by
  unfold splitOperand
  split
  · exact .error (inside_unexpectedEnd (by simp))
  · split
    · exact (parseValue_failsInside _).map _
    · split
      · exact .error ⟨by simp, by simp⟩
      · exact .ok _

theorem parseExpr_failsInside (ts : List Token) : FailsInside (parseExpr ts) := by
  -- the arguments of a call and what follows an operator are shorter than the whole
  induction hn : ts.length using Nat.strongRecOn generalizing ts with
  | _ n ih =>
    subst hn
    rw [parseExpr_eq]
    refine (splitOperand_failsInside ts).bind fun split hs => ?_
    obtain ⟨operand, rest⟩ := split
    have hpieces : FailsInside (operand.pieces.mapM parseExpr) :=
      .mapM fun piece hp => ih _ (length_piece hs hp) piece rfl
    refine hpieces.bind fun arguments _ => ?_
    cases rest with
    | nil => exact .ok _
    | cons t right =>
      have hright := length_splitOperand hs
      rw [List.length_cons] at hright
      rw [parseBehind]
      split
      · exact .error ⟨by simp, by simp⟩
      · exact (ih _ (by omega) right rfl).bind fun _ _ => .ok _

theorem parseDeclaration_failsInside (form : Declarator) (ts : List Token) :
    FailsInside (parseDeclaration form ts) := by
  unfold parseDeclaration
  refine (parseName_failsInside (by simp) _).bind fun name _ => ?_
  split
  · exact .error ⟨by simp, by simp⟩
  · exact (parseExpr_failsInside _).bind fun _ _ => .ok _

theorem parseSimple_failsInside (first : Token) (ts : List Token) :
    FailsInside (parseSimple (first :: ts)) := by
  rw [parseSimple]
  split
  · exact parseDeclaration_failsInside _ _
  · exact (parseExpr_failsInside _).bind fun _ _ => .ok _
  · exact (parseExpr_failsInside _).bind fun _ _ => .ok _

end TinyScript
