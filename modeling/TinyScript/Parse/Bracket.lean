import TinyScript.Parse.Error
import TinyScript.Token.Basic

/-!
Cutting token lists at brackets, commas and semicolons. Each function counts how many brackets
are open and cuts where none is; none of them looks at what lies between.
-/

namespace TinyScript

structure Bracket where
  opening : Symbol
  closing : Symbol

namespace Bracket

def paren : Bracket := ⟨.openParen, .closeParen⟩

def brace : Bracket := ⟨.openBrace, .closeBrace⟩

/-- Splits the tokens behind an opening bracket into those before the bracket that closes it and
those after; `depth` counts the brackets opened on the way. -/
def split? (b : Bracket) (depth : Nat) : List Token → Option (List Token × List Token)
  | [] => none
  | t :: ts =>
    if t.is b.opening then
      (b.split? (depth + 1) ts).map fun (inside, after) => (t :: inside, after)
    else if t.is b.closing then
      if depth = 0 then some ([], ts)
      else (b.split? (depth - 1) ts).map fun (inside, after) => (t :: inside, after)
    else
      (b.split? depth ts).map fun (inside, after) => (t :: inside, after)

theorem length_split? {b : Bracket} {depth : Nat} {ts inside after : List Token}
    (h : b.split? depth ts = some (inside, after)) :
    inside.length + after.length < ts.length := by
  induction ts generalizing depth inside with
  | nil => cases h
  | cons t ts ih =>
    have keep : ∀ {d : Nat}, (b.split? d ts).map (fun (i, a) => (t :: i, a)) =
        some (inside, after) → inside.length + after.length < (t :: ts).length := by
      intro d hd
      obtain ⟨⟨i, a⟩, hs, he⟩ := Option.map_eq_some_iff.mp hd
      cases he
      have := ih hs
      simp only [List.length_cons]
      omega
    rw [split?] at h
    split at h
    · exact keep h
    · split at h
      · split at h
        · cases h
          simp
        · exact keep h
      · exact keep h

end Bracket

/-- Puts a token in front of the first piece. -/
def extendFirst (t : Token) : List (List Token) → List (List Token)
  | [] => [[t]]
  | piece :: pieces => (t :: piece) :: pieces

/-- The pieces between the commas outside of parentheses, of which there is one more than there
are such commas. A closing parenthesis too many is passed over. -/
def commaPieces (depth : Nat) : List Token → List (List Token)
  | [] => [[]]
  | t :: ts =>
    if t.is .openParen then extendFirst t (commaPieces (depth + 1) ts)
    else if t.is .closeParen then extendFirst t (commaPieces (depth - 1) ts)
    else if t.is .comma && depth = 0 then [] :: commaPieces 0 ts
    else extendFirst t (commaPieces depth ts)

/-- Nothing at all is no argument, not an empty one. -/
def splitArguments (ts : List Token) : List (List Token) :=
  if ts.isEmpty then [] else commaPieces 0 ts

theorem length_commaPieces {depth : Nat} {ts piece : List Token}
    (h : piece ∈ commaPieces depth ts) : piece.length ≤ ts.length := by
  induction ts generalizing depth piece with
  | nil =>
    cases List.mem_singleton.mp h
    simp
  | cons t ts ih =>
    have keep : ∀ {d : Nat}, piece ∈ extendFirst t (commaPieces d ts) →
        piece.length ≤ (t :: ts).length := by
      intro d hd
      cases hp : commaPieces d ts with
      | nil =>
        rw [hp, extendFirst] at hd
        cases List.mem_singleton.mp hd
        simp
      | cons first others =>
        rw [hp, extendFirst] at hd
        have hall : ∀ p ∈ first :: others, p.length ≤ ts.length := by
          intro p hm
          exact ih (hp ▸ hm)
        rcases List.mem_cons.mp hd with rfl | hm
        · have := hall first (by simp)
          simp only [List.length_cons]
          omega
        · have := hall piece (by simp [hm])
          simp only [List.length_cons]
          omega
    rw [commaPieces] at h
    split at h
    · exact keep h
    · split at h
      · exact keep h
      · split at h
        · rcases List.mem_cons.mp h with rfl | hm
          · simp
          · have := ih hm
            simp only [List.length_cons]
            omega
        · exact keep h

theorem length_splitArguments {ts piece : List Token} (h : piece ∈ splitArguments ts) :
    piece.length ≤ ts.length := by
  unfold splitArguments at h
  split at h
  · cases h
  · exact length_commaPieces h

/-- Cuts one unit off the front: up to a semicolon outside of braces, which is dropped, or up to
the brace that closes the first block, or all there is. `first` names the unit if a block stays
open. -/
def cutUnit (first : Token) (depth : Nat) :
    List Token → Except ParseError (List Token × List Token)
  | [] => if depth = 0 then .ok ([], []) else .error (.unclosedBlock first.text)
  | t :: ts =>
    if t.is .semicolon && depth = 0 then .ok ([], ts)
    else if t.is .openBrace then
      (cutUnit first (depth + 1) ts).map fun (unit, rest) => (t :: unit, rest)
    else if t.is .closeBrace then
      if depth = 0 then .error (.unexpectedToken t.text)
      else if depth = 1 then .ok ([t], ts)
      else (cutUnit first (depth - 1) ts).map fun (unit, rest) => (t :: unit, rest)
    else
      (cutUnit first depth ts).map fun (unit, rest) => (t :: unit, rest)

/-- A unit and what follows it hold no more than the tokens they were cut from, and the first
token is used up. -/
theorem length_cutUnit {first : Token} {depth : Nat} {ts unit rest : List Token}
    (h : cutUnit first depth ts = .ok (unit, rest)) :
    unit.length + rest.length ≤ ts.length ∧ (ts ≠ [] → rest.length < ts.length) := by
  induction ts generalizing depth unit with
  | nil =>
    rw [cutUnit] at h
    split at h <;> cases h
    simp
  | cons t ts ih =>
    have keep : ∀ {d : Nat}, (cutUnit first d ts).map (fun (u, r) => (t :: u, r)) =
        .ok (unit, rest) → unit.length + rest.length ≤ (t :: ts).length ∧
          ((t :: ts) ≠ [] → rest.length < (t :: ts).length) := by
      intro d hd
      cases hc : cutUnit first d ts with
      | error e =>
        rw [hc] at hd
        cases hd
      | ok pair =>
        obtain ⟨u, r⟩ := pair
        rw [hc] at hd
        cases hd
        have := (ih hc).1
        simp only [List.length_cons]
        omega
    rw [cutUnit] at h
    split at h
    · cases h
      simp
    · split at h
      · exact keep h
      · split at h
        · split at h
          · cases h
          · split at h
            · cases h
              simp only [List.length_cons, List.length_nil]
              omega
            · exact keep h
        · exact keep h

end TinyScript
