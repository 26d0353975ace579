import TinyScript.Proofs.Units

/-!
Positions in a list of tokens. Brackets, arguments and units can also be found by counting, with
slices cut at the positions that are found. Such a step can go wrong: a slice can be out of range,
and a count can be taken below zero. Here no step does, and the slices are the pieces that are cut
off without any positions.
-/

namespace TinyScript

/-- Reading in steps of which some can go wrong. If one does, there is no outcome at all, not even
an error. -/
abbrev Checked := ExceptT ParseError Option

namespace Checked

variable {α β : Type}

/-- Reading in which no step goes wrong. -/
def sure (x : Except ParseError α) : Checked α :=
  ExceptT.mk (some x)

theorem pure_eq_sure (a : α) : (pure a : Checked α) = sure (.ok a) :=
  rfl

theorem lift_eq_sure (x : Except ParseError α) : (liftM x : Checked α) = sure x :=
  rfl

@[simp]
theorem lift_some_bind (a : α) (f : α → Checked β) : (liftM (some a) : Checked α) >>= f = f a :=
  rfl

theorem except_ok_bind (a : α) (f : α → Except ParseError β) : Except.ok a >>= f = f a :=
  rfl

@[simp]
theorem sure_ok_bind (a : α) (f : α → Checked β) : sure (.ok a) >>= f = f a :=
  rfl

theorem mapM_sure {f : α → Checked β} {g : α → Except ParseError β} {xs : List α}
    (h : ∀ x ∈ xs, f x = sure (g x)) : xs.mapM f = sure (xs.mapM g) := by
  induction xs with
  | nil => rfl
  | cons x xs ih =>
    obtain ⟨hx, hxs⟩ := List.forall_mem_cons.mp h
    rw [List.mapM_cons, List.mapM_cons, hx, ih hxs]
    cases g x with
    | error e => rfl
    | ok y => cases xs.mapM g <;> rfl

end Checked

/-- One less, which nothing is for zero. -/
def oneLess? : Nat → Option Nat
  | 0 => none
  | n + 1 => some n

/-- The items from `start` up to `stop`. There are none to give if these are out of range or in the
wrong order. -/
def slice? {α : Type} (xs : List α) (start stop : Nat) : Option (List α) :=
  if start ≤ stop ∧ stop ≤ xs.length then some ((xs.take stop).drop start) else none

namespace Positional

/-- Looks for the position where the count of open brackets comes down to zero; `position` is that
of the first token. -/
def closingFrom (b : Bracket) (depth position : Nat) : List Token → Option (Option Nat)
  | [] => some none
  | t :: ts =>
    if t.is b.opening then closingFrom b (depth + 1) (position + 1) ts
    else if t.is b.closing then do
      let depth ← oneLess? depth
      if depth = 0 then return some position else closingFrom b depth (position + 1) ts
    else closingFrom b depth (position + 1) ts

/-- The position of the bracket that closes the one at `start`. -/
def findClosing (b : Bracket) (ts : List Token) (start : Nat) : Option (Option Nat) :=
  closingFrom b 0 start (ts.drop start)

/-- The slices of `ts` between commas, of which the first starts at `start`. What is left to look at
begins at `position`. -/
def piecesFrom (ts : List Token) (start position depth : Nat) :
    List Token → Option (List (List Token))
  | [] => do return [← slice? ts start ts.length]
  | t :: rest =>
    if t.is .openParen then piecesFrom ts start (position + 1) (depth + 1) rest
    else if t.is .closeParen then piecesFrom ts start (position + 1) (depth - 1) rest
    else if t.is .comma && depth = 0 then do
      let piece ← slice? ts start position
      return piece :: (← piecesFrom ts (position + 1) (position + 1) 0 rest)
    else piecesFrom ts start (position + 1) depth rest

def splitArguments (ts : List Token) : Option (List (List Token)) :=
  if ts.isEmpty then some [] else piecesFrom ts 0 0 0 ts

/-- The unit of `ts` that starts at `start`, and the position behind it. What is left to look at
begins at `position`. -/
def unitFrom (ts : List Token) (start position depth : Nat) :
    List Token → Checked (List Token × Nat)
  | [] =>
    if 0 < depth then do
      let first ← (ts[start]? : Option Token)
      throw (.unclosedBlock first.text)
    else do return (← slice? ts start ts.length, position)
  | t :: rest =>
    if t.is .semicolon && depth = 0 then do
      let stop ← oneLess? (position + 1)
      return (← slice? ts start stop, position + 1)
    else if t.is .openBrace then unitFrom ts start (position + 1) (depth + 1) rest
    else if t.is .closeBrace then
      if depth = 0 then throw (.unexpectedToken t.text)
      else do
        let depth ← oneLess? depth
        if depth = 0 then return (← slice? ts start (position + 1), position + 1)
        else unitFrom ts start (position + 1) depth rest
    else unitFrom ts start (position + 1) depth rest

/-- The unit at a position, and the position behind it. At the end there is none. -/
def nextUnit (ts : List Token) (position : Nat) : Checked (Option (List Token × Nat)) :=
  if ts.length ≤ position then return none
  else do return some (← unitFrom ts position position 0 (ts.drop position))

end Positional

theorem slice?_append {α : Type} {xs before middle after : List α} {start stop : Nat}
    (h : xs = before ++ (middle ++ after)) (hs : start = before.length)
    (hp : stop = before.length + middle.length) : slice? xs start stop = some middle := by
  subst h hs hp
  have hr : before.length ≤ before.length + middle.length ∧
      before.length + middle.length ≤ (before ++ (middle ++ after)).length := by
    simp only [List.length_append]
    omega
  rw [slice?, if_pos hr, ← List.append_assoc, ← List.length_append, List.take_left, List.drop_left]

theorem lt_length_of_drop_eq_cons {α : Type} {xs rest : List α} {x : α} {n : Nat}
    (h : xs.drop n = x :: rest) : n < xs.length := by
  have hl := congrArg List.length h
  rw [List.length_drop, List.length_cons] at hl
  omega

theorem eq_take_append_of_drop_eq {α : Type} {xs rest : List α} {n : Nat} (h : xs.drop n = rest) :
    xs = xs.take n ++ rest := by
  rw [← h, List.take_append_drop]

namespace Positional

/-- The count starts with the bracket itself, so it is one ahead of the cut behind that bracket and
never at zero when a bracket closes. -/
theorem closingFrom_eq (b : Bracket) (depth position : Nat) (ts : List Token) :
    closingFrom b (depth + 1) position ts =
      some ((b.split? depth ts).map fun cut => position + cut.1.length) := by
  induction ts generalizing depth position with
  | nil => rfl
  | cons t ts ih =>
    have hnext (d : Nat) : closingFrom b (d + 1) (position + 1) ts =
        some (((b.split? d ts).map fun cut => (t :: cut.1, cut.2)).map
          fun cut => position + cut.1.length) := by
      rw [ih, Option.map_map]
      simp only [Function.comp_def, List.length_cons, Nat.add_assoc, Nat.add_comm 1]
    rw [closingFrom, Bracket.split?]
    by_cases ho : t.is b.opening = true
    · rw [if_pos ho, if_pos ho, hnext]
    · rw [if_neg ho, if_neg ho]
      by_cases hc : t.is b.closing = true
      · rw [if_pos hc, if_pos hc]
        cases depth with
        | zero => rfl
        | succ depth => exact hnext depth
      · rw [if_neg hc, if_neg hc, hnext]

theorem findClosing_eq {b : Bracket} {ts inner : List Token} {t : Token} {start : Nat}
    (h : ts.drop start = t :: inner) (ht : t.is b.opening = true) :
    findClosing b ts start =
      some ((b.split? 0 inner).map fun cut => start + 1 + cut.1.length) := by
  rw [findClosing, h, closingFrom, if_pos ht, closingFrom_eq]

/-- The search does go wrong where it does not start at an opening bracket. -/
example : findClosing .paren [⟨")"⟩] 0 = none := by
  decide

/-- What a search for the bracket that closes the one at `start` leads to: the position of that
bracket, with the tokens inside and those after as slices. -/
structure Closes (b : Bracket) (ts : List Token) (start : Nat) (inside after : List Token)
    (close : Nat) : Prop where
  found : findClosing b ts start = some (some close)
  slice_inside : slice? ts (start + 1) close = some inside
  slice_after : slice? ts (close + 1) ts.length = some after
  drop_after : ts.drop (close + 1) = after

/-- The search succeeds if the cut behind the bracket does, and the slices are what was cut. -/
theorem closes_of_split? {b : Bracket} {ts inner inside after : List Token} {t : Token} {start : Nat}
    (h : ts.drop start = t :: inner) (ht : t.is b.opening = true)
    (hc : b.split? 0 inner = some (inside, after)) :
    Closes b ts start inside after (start + 1 + inside.length) := by
  obtain ⟨_, hinner⟩ := Bracket.scan_of_split? hc
  have hlen : (ts.take start).length = start :=
    List.length_take_of_le (Nat.le_of_lt (lt_length_of_drop_eq_cons h))
  have hts : ts = (ts.take start ++ [t]) ++ (inside ++ b.closing.token :: after) := by
    rw [← hinner, List.append_assoc]
    exact eq_take_append_of_drop_eq h
  have hts' : ts = (ts.take start ++ [t] ++ inside ++ [b.closing.token]) ++ (after ++ []) := by
    rw [List.append_nil, List.append_assoc, List.append_assoc]
    exact hts
  have hstart : start + 1 = (ts.take start ++ [t]).length := by
    rw [List.length_append, hlen]
    rfl
  have hclose : start + 1 + inside.length + 1 =
      (ts.take start ++ [t] ++ inside ++ [b.closing.token]).length := by
    rw [hstart]
    simp only [List.length_append, List.length_singleton]
  have hend : ts.length = (ts.take start ++ [t] ++ inside ++ [b.closing.token]).length +
      after.length := by
    rw [← List.length_append, ← List.append_nil after, ← hts']
  have hafter : ts.drop (start + 1 + inside.length + 1) = after := by
    rw [Nat.add_assoc, Nat.add_assoc, ← List.drop_drop, h, hinner, Nat.add_comm 1, List.drop_succ_cons,
      ← List.drop_drop, List.drop_left]
    rfl
  refine ⟨?_, ?_, ?_, hafter⟩
  · rw [findClosing_eq h ht, hc]
    rfl
  · exact slice?_append hts hstart (by rw [hstart])
  · exact slice?_append hts' hclose hend

/-- What has been passed since the last comma goes before the first of the pieces to come. -/
theorem piecesFrom_eq {ts rest : List Token} (done current : List Token) (depth : Nat)
    (h : ts = done ++ (current ++ rest)) :
    piecesFrom ts done.length (done.length + current.length) depth rest =
      some (current.foldr extendFirst (commaPieces depth rest)) := by
  induction rest generalizing done current depth with
  | nil =>
    have hl : ts.length = done.length + current.length := by
      rw [h, List.length_append, List.append_nil]
    rw [piecesFrom, slice?_append h rfl hl, commaPieces, foldr_extendFirst, List.append_nil]
    rfl
  | cons t rest ih =>
    have hpass (d : Nat) : piecesFrom ts done.length (done.length + current.length + 1) d rest =
        some (current.foldr extendFirst (extendFirst t (commaPieces d rest))) := by
      have hp := ih done (current ++ [t]) d (by rw [h]; simp)
      rw [List.length_append, List.foldr_append] at hp
      exact hp
    rw [piecesFrom, commaPieces]
    by_cases ho : t.is .openParen = true
    · rw [if_pos ho, if_pos ho, hpass]
    · rw [if_neg ho, if_neg ho]
      by_cases hc : t.is .closeParen = true
      · rw [if_pos hc, if_pos hc, hpass]
      · rw [if_neg hc, if_neg hc]
        by_cases hm : (t.is .comma && depth = 0) = true
        · have hcut := ih (done ++ current ++ [t]) [] 0 (by rw [h]; simp)
          simp only [List.length_append, List.length_cons, List.length_nil, Nat.add_zero,
            Nat.zero_add, List.foldr_nil] at hcut
          rw [if_pos hm, if_pos hm, slice?_append h rfl rfl, foldr_extendFirst, List.append_nil]
          simp [hcut]
        · rw [if_neg hm, if_neg hm, hpass]

/-- Cutting at positions gives the same arguments, and no cut goes wrong. -/
theorem splitArguments_eq (ts : List Token) :
    splitArguments ts = some (TinyScript.splitArguments ts) := by
  unfold splitArguments TinyScript.splitArguments
  split
  · rfl
  · exact piecesFrom_eq [] [] 0 rfl

/-- What has been passed since the start of the unit belongs to it, and the position behind a unit is
told by how many tokens are left. -/
theorem unitFrom_eq {ts rest : List Token} {first : Token} (done current : List Token) (depth : Nat)
    (h : ts = done ++ (current ++ rest)) (hf : (current ++ rest).head? = some first) :
    unitFrom ts done.length (done.length + current.length) depth rest =
      .sure ((cutUnit first depth rest).map fun cut =>
        (current ++ cut.1, ts.length - cut.2.length)) := by
  have hl : ts.length = done.length + current.length + rest.length := by
    rw [h, List.length_append, List.length_append, Nat.add_assoc]
  induction rest generalizing current depth with
  | nil =>
    rw [unitFrom, cutUnit]
    by_cases hd : depth = 0
    · rw [if_neg (by omega), if_pos hd, slice?_append h rfl hl, hl]
      change Checked.sure (.ok (current, done.length + current.length)) =
        .sure (.ok (current ++ [], done.length + current.length))
      rw [List.append_nil]
    · have hget : ts[done.length]? = some first := by
        rw [h, List.getElem?_append_right (Nat.le_refl _), Nat.sub_self, ← List.head?_eq_getElem?,
          hf]
      rw [if_pos (by omega), if_neg hd, hget]
      rfl
  | cons t rest ih =>
    have hpass (d : Nat) : unitFrom ts done.length (done.length + current.length + 1) d rest =
        .sure (((cutUnit first d rest).map fun cut => (t :: cut.1, cut.2)).map fun cut =>
          (current ++ cut.1, ts.length - cut.2.length)) := by
      have hp := ih (current ++ [t]) d (by rw [h]; simp) (by simpa using hf)
        (by rw [hl]; simp; omega)
      rw [List.length_append] at hp
      refine hp.trans ?_
      cases cutUnit first d rest with
      | error e => rfl
      | ok cut => simp [Except.map]
    have hstop : ts.length - rest.length = done.length + current.length + 1 := by
      rw [hl, List.length_cons]
      omega
    rw [unitFrom, cutUnit]
    by_cases hs : (t.is .semicolon && depth = 0) = true
    · rw [if_pos hs, if_pos hs]
      simp only [oneLess?, Checked.lift_some_bind, slice?_append h rfl rfl, Except.map, hstop,
        List.append_nil, Checked.pure_eq_sure]
    · rw [if_neg hs, if_neg hs]
      by_cases ho : t.is .openBrace = true
      · rw [if_pos ho, if_pos ho, hpass]
      · rw [if_neg ho, if_neg ho]
        by_cases hc : t.is .closeBrace = true
        · rw [if_pos hc, if_pos hc]
          cases depth with
          | zero => rfl
          | succ depth =>
            cases depth with
            | zero =>
              have hts : ts = done ++ (current ++ [t] ++ rest) := by
                rw [h]
                simp
              have hunit : slice? ts done.length (done.length + current.length + 1) =
                  some (current ++ [t]) :=
                slice?_append hts rfl (by rw [List.length_append]; rfl)
              simp only [oneLess?, Checked.lift_some_bind, hunit, Except.map, hstop,
                Checked.pure_eq_sure, Nat.zero_add, Nat.one_ne_zero, ↓reduceIte]
            | succ depth => exact hpass (depth + 1)
        · rw [if_neg hc, if_neg hc, hpass]

theorem nextUnit_of_drop_nil {ts : List Token} {position : Nat} (h : ts.drop position = []) :
    nextUnit ts position = .sure (.ok none) := by
  rw [nextUnit, if_pos (List.drop_eq_nil_iff.mp h)]
  rfl

theorem nextUnit_of_drop_cons {ts rest : List Token} {t : Token} {position : Nat}
    (h : ts.drop position = t :: rest) :
    nextUnit ts position = .sure ((cutUnit t 0 (t :: rest)).map fun cut =>
      some (cut.1, ts.length - cut.2.length)) := by
  have hts : ts = ts.take position ++ ([] ++ t :: rest) := eq_take_append_of_drop_eq h
  have hlt := lt_length_of_drop_eq_cons h
  have hlen : (ts.take position).length = position := List.length_take_of_le (Nat.le_of_lt hlt)
  have hu := unitFrom_eq (ts.take position) [] 0 hts rfl
  rw [List.length_nil, Nat.add_zero, hlen] at hu
  rw [nextUnit, if_neg (by omega), h, hu]
  cases cutUnit t 0 (t :: rest) <;> rfl

/-- The position behind a unit is where the next one starts. -/
theorem drop_of_cutUnit {ts unit after : List Token} {first : Token} {position : Nat}
    (h : cutUnit first 0 (ts.drop position) = .ok (unit, after)) :
    ts.drop (ts.length - after.length) = after := by
  have hs : after <:+ ts.drop position := by
    rcases cutUnit_shape h with hs | ⟨hs, _⟩
    · exact ⟨unit ++ [Symbol.semicolon.token], by rw [hs]; simp⟩
    · exact ⟨unit, hs.symm⟩
  exact (List.suffix_iff_eq_drop.mp (hs.trans (List.drop_suffix position ts))).symm

end Positional

end TinyScript
