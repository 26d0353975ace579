import TinyScript.Proofs.Positions

/-!
Brackets by their numbers. The bracket that closes another one is the first at which as many are
closed as were opened, and what lies between the two can be cut at its commas with a count that is
never taken below zero. The scan for the bracket and the scan for the commas count from different
places, and agree.
-/

namespace TinyScript

namespace Bracket

def openings (b : Bracket) (ts : List Token) : Nat :=
  ts.countP (·.is b.opening)

def closings (b : Bracket) (ts : List Token) : Nat :=
  ts.countP (·.is b.closing)

/-- With `depth` brackets open in front of the tokens, at no point more have been closed than were
opened. -/
def Contained (b : Bracket) (depth : Nat) (ts : List Token) : Prop :=
  ∀ u, u <+: ts → b.closings u ≤ depth + b.openings u

/-- Tokens at the start of others of which as many close a bracket as open one. -/
structure LevelPrefix (b : Bracket) (ts u : List Token) : Prop where
  ne_nil : u ≠ []
  is_start : u <+: ts
  level : b.openings u = b.closings u

section Counts

variable {b : Bracket} {t : Token}

theorem openings_append (u v : List Token) : b.openings (u ++ v) = b.openings u + b.openings v :=
  List.countP_append

theorem closings_append (u v : List Token) : b.closings (u ++ v) = b.closings u + b.closings v :=
  List.countP_append

theorem openings_of_opening (h : t.is b.opening = true) (ts : List Token) :
    b.openings (t :: ts) = b.openings ts + 1 :=
  List.countP_cons_of_pos h

theorem openings_of_not (h : t.is b.opening = false) (ts : List Token) :
    b.openings (t :: ts) = b.openings ts :=
  List.countP_cons_of_neg (by simp [h])

theorem closings_of_closing (h : t.is b.closing = true) (ts : List Token) :
    b.closings (t :: ts) = b.closings ts + 1 :=
  List.countP_cons_of_pos h

theorem closings_of_not (h : t.is b.closing = false) (ts : List Token) :
    b.closings (t :: ts) = b.closings ts :=
  List.countP_cons_of_neg (by simp [h])

theorem is_closing_eq_false (hb : b.opening ≠ b.closing) (h : t.is b.opening = true) :
    t.is b.closing = false := by
  rw [Token.eq_token h, Symbol.token_is, decide_eq_false hb]

theorem contained_nil (depth : Nat) : b.Contained depth [] := by
  intro u hu
  rw [List.prefix_nil.mp hu]
  exact Nat.zero_le _

/-- A condition on all that tokens start with, taken one token further. -/
theorem contained_cons_iff {depth : Nat} {ts : List Token} :
    b.Contained depth (t :: ts) ↔ ∀ u, u <+: ts → b.closings (t :: u) ≤ depth + b.openings (t :: u) := by
  constructor
  · intro h u hu
    exact h (t :: u) (List.cons_prefix_cons.mpr ⟨rfl, hu⟩)
  · intro h u hu
    rcases List.prefix_cons_iff.mp hu with rfl | ⟨v, rfl, hv⟩
    · exact Nat.zero_le _
    · exact h v hv

theorem contained_of_opening (hb : b.opening ≠ b.closing) (h : t.is b.opening = true) {depth : Nat}
    {ts : List Token} : b.Contained depth (t :: ts) ↔ b.Contained (depth + 1) ts := by
  rw [contained_cons_iff]
  simp only [Contained, openings_of_opening h, closings_of_not (is_closing_eq_false hb h),
    Nat.add_assoc, Nat.add_comm 1]

theorem contained_of_closing (ho : t.is b.opening = false) (hc : t.is b.closing = true) {depth : Nat}
    {ts : List Token} : b.Contained depth (t :: ts) ↔ ∃ d, depth = d + 1 ∧ b.Contained d ts := by
  rw [contained_cons_iff]
  simp only [Contained, openings_of_not ho, closings_of_closing hc]
  constructor
  · intro h
    have hpos : 0 + 1 ≤ depth + 0 := h [] (List.nil_prefix)
    refine ⟨depth - 1, by omega, fun u hu => ?_⟩
    have := h u hu
    omega
  · rintro ⟨d, rfl, h⟩ u hu
    have := h u hu
    omega

theorem contained_of_other (ho : t.is b.opening = false) (hc : t.is b.closing = false) {depth : Nat}
    {ts : List Token} : b.Contained depth (t :: ts) ↔ b.Contained depth ts := by
  rw [contained_cons_iff]
  simp only [Contained, openings_of_not ho, closings_of_not hc]

/-- Tokens can be scanned if no bracket is closed that was not open, and the brackets that are left
open are those that were opened and not closed. -/
theorem scan_iff (hb : b.opening ≠ b.closing) {depth d : Nat} {ts : List Token} :
    b.Scan depth ts d ↔
      b.Contained depth ts ∧ depth + b.openings ts = d + b.closings ts := by
  constructor
  · intro h
    induction h with
    | nil depth => exact ⟨contained_nil depth, rfl⟩
    | opened ho _ ih =>
      refine ⟨(contained_of_opening hb ho).mpr ih.1, ?_⟩
      have := ih.2
      rw [openings_of_opening ho, closings_of_not (is_closing_eq_false hb ho)]
      omega
    | closed ho hc _ ih =>
      refine ⟨(contained_of_closing ho hc).mpr ⟨_, rfl, ih.1⟩, ?_⟩
      have := ih.2
      rw [openings_of_not ho, closings_of_closing hc]
      omega
    | passed ho hc _ ih =>
      refine ⟨(contained_of_other ho hc).mpr ih.1, ?_⟩
      rw [openings_of_not ho, closings_of_not hc]
      exact ih.2
  · rintro ⟨hcontained, hcount⟩
    induction ts generalizing depth with
    | nil =>
      have hd : depth = d := hcount
      rw [hd]
      exact .nil d
    | cons t ts ih =>
      by_cases ho : t.is b.opening = true
      · rw [openings_of_opening ho, closings_of_not (is_closing_eq_false hb ho)] at hcount
        exact .opened ho (ih ((contained_of_opening hb ho).mp hcontained) (by omega))
      · have ho : t.is b.opening = false := by simpa using ho
        by_cases hc : t.is b.closing = true
        · obtain ⟨depth, rfl, hrest⟩ := (contained_of_closing ho hc).mp hcontained
          rw [openings_of_not ho, closings_of_closing hc] at hcount
          exact .closed ho hc (ih hrest (by omega))
        · have hc : t.is b.closing = false := by simpa using hc
          rw [openings_of_not ho, closings_of_not hc] at hcount
          exact .passed ho hc (ih ((contained_of_other ho hc).mp hcontained) hcount)

/-- Where no closing bracket is found, there are never more closed than opened. -/
theorem contained_of_split?_eq_none (hb : b.opening ≠ b.closing) {depth : Nat} {ts : List Token}
    (h : b.split? depth ts = none) : b.Contained depth ts := by
  induction ts generalizing depth with
  | nil => exact contained_nil depth
  | cons t ts ih =>
    rw [split?] at h
    by_cases ho : t.is b.opening = true
    · rw [if_pos ho, Option.map_eq_none_iff] at h
      exact (contained_of_opening hb ho).mpr (ih h)
    · rw [if_neg ho] at h
      have ho : t.is b.opening = false := by simpa using ho
      by_cases hc : t.is b.closing = true
      · rw [if_pos hc] at h
        cases depth with
        | zero => cases h
        | succ depth =>
          rw [if_neg (Nat.succ_ne_zero depth), Option.map_eq_none_iff] at h
          exact (contained_of_closing ho hc).mpr ⟨depth, rfl, ih h⟩
      · rw [if_neg hc, Option.map_eq_none_iff] at h
        exact (contained_of_other ho (by simpa using hc)).mpr (ih h)

/-- Behind an opening bracket the counts are level only if more are closed than opened. -/
theorem LevelPrefix.tail (hb : b.opening ≠ b.closing) (ht : t.is b.opening = true)
    {inner u : List Token} (h : b.LevelPrefix (t :: inner) u) :
    ∃ v, u = t :: v ∧ v <+: inner ∧ b.closings v = b.openings v + 1 := by
  rcases List.prefix_cons_iff.mp h.is_start with hu | ⟨v, rfl, hv⟩
  · exact absurd hu h.ne_nil
  · have hlevel := h.level
    rw [openings_of_opening ht, closings_of_not (is_closing_eq_false hb ht)] at hlevel
    exact ⟨v, rfl, hv, hlevel.symm⟩

/-- The cut behind an opening bracket makes the shortest level start. -/
theorem levelPrefix_of_split? (hb : b.opening ≠ b.closing) (ht : t.is b.opening = true)
    {inner inside after : List Token} (h : b.split? 0 inner = some (inside, after)) :
    b.LevelPrefix (t :: inner) (t :: (inside ++ [b.closing.token])) ∧
      ∀ v, b.LevelPrefix (t :: inner) v → (t :: (inside ++ [b.closing.token])).length ≤ v.length := by
  obtain ⟨hscan, rfl⟩ := scan_of_split? h
  obtain ⟨hcontained, hcount⟩ := (scan_iff hb).mp hscan
  have hclosing : b.closing.token.is b.closing = true := by simp
  have hother : b.closing.token.is b.opening = false := by simp [hb.symm]
  refine ⟨⟨List.cons_ne_nil _ _, ⟨after, by simp⟩, ?_⟩, ?_⟩
  · rw [openings_of_opening ht, closings_of_not (is_closing_eq_false hb ht), openings_append,
      closings_append, openings_of_not hother, closings_of_closing hclosing]
    have hn : b.openings [] = b.closings [] := rfl
    omega
  · intro v hv
    obtain ⟨v, rfl, hstart, hmore⟩ := hv.tail hb ht
    have hlong : inside.length < v.length := by
      -- a start no longer than what lies inside would be a start of it, where too few are closed
      refine Nat.lt_of_not_le fun hshort => ?_
      have hinside : v <+: inside :=
        List.prefix_of_prefix_length_le hstart (List.prefix_append _ _) hshort
      have := hcontained v hinside
      omega
    simp only [List.length_cons, List.length_append, List.length_nil]
    omega

theorem not_levelPrefix_of_split?_eq_none (hb : b.opening ≠ b.closing) (ht : t.is b.opening = true)
    {inner u : List Token} (h : b.split? 0 inner = none) : ¬ b.LevelPrefix (t :: inner) u := by
  intro hu
  obtain ⟨v, _, hstart, hmore⟩ := hu.tail hb ht
  have := contained_of_split?_eq_none hb h v hstart
  omega

end Counts

end Bracket

/-- The comma at a position has no open parenthesis around it, of those that are open in front of the
tokens or are opened among them. -/
def OuterComma (depth : Nat) (ts : List Token) (i : Nat) : Prop :=
  ts[i]? = some Symbol.comma.token ∧
    depth + Bracket.paren.openings (ts.take i) = Bracket.paren.closings (ts.take i)

instance (depth : Nat) (ts : List Token) : DecidablePred (OuterComma depth ts) :=
  fun _ => inferInstanceAs (Decidable (_ ∧ _))

def outerCommaCount (depth : Nat) (ts : List Token) : Nat :=
  (List.range ts.length).countP (OuterComma depth ts ·)

theorem outerComma_zero {depth : Nat} {t : Token} {ts : List Token} :
    OuterComma depth (t :: ts) 0 ↔ (t.is .comma && depth = 0) = true := by
  have hc : t.is .comma = true ↔ t = Symbol.comma.token :=
    ⟨Token.eq_token, fun h => by simp [h]⟩
  simp [OuterComma, hc, Bracket.openings, Bracket.closings]

/-- One token further, the parentheses in front of the rest are told by that token. -/
theorem outerComma_succ {depth d i : Nat} {t : Token} {ts : List Token}
    (h : depth + Bracket.paren.openings [t] = d + Bracket.paren.closings [t]) :
    OuterComma depth (t :: ts) (i + 1) ↔ OuterComma d ts i := by
  have ho := Bracket.openings_append (b := .paren) [t] (ts.take i)
  have hc := Bracket.closings_append (b := .paren) [t] (ts.take i)
  rw [List.singleton_append] at ho hc
  rw [OuterComma, OuterComma, List.getElem?_cons_succ, List.take_succ_cons, ho, hc]
  constructor
  · rintro ⟨hm, hl⟩
    exact ⟨hm, by omega⟩
  · rintro ⟨hm, hl⟩
    exact ⟨hm, by omega⟩

theorem outerCommaCount_cons {depth d : Nat} {t : Token} {ts : List Token}
    (h : depth + Bracket.paren.openings [t] = d + Bracket.paren.closings [t]) :
    outerCommaCount depth (t :: ts) =
      outerCommaCount d ts + if t.is .comma && depth = 0 then 1 else 0 := by
  rw [outerCommaCount, List.length_cons, List.range_succ_eq_map, List.countP_cons, List.countP_map]
  simp only [decide_eq_true_eq, outerComma_zero, Function.comp_def, Nat.succ_eq_add_one,
    outerComma_succ h]
  rfl

/-- Counting with the depth at hand finds the commas that are outside by the numbers of parentheses
before them. -/
theorem outerCommas_eq_count {depth : Nat} {ts : List Token}
    (h : Bracket.paren.Contained depth ts) : outerCommas depth ts = outerCommaCount depth ts := by
  induction ts generalizing depth with
  | nil => rfl
  | cons t ts ih =>
    rw [outerCommas]
    by_cases ho : t.is .openParen = true
    · have hm : t.is .comma = false := by simp [Token.eq_token ho]
      have hd : depth + Bracket.paren.openings [t] = depth + 1 + Bracket.paren.closings [t] := by
        rw [Token.eq_token ho]
        rfl
      rw [if_pos ho, outerCommaCount_cons hd, hm,
        ih ((Bracket.contained_of_opening Bracket.paren_distinct ho).mp h)]
      rfl
    · rw [if_neg ho]
      have ho : t.is Bracket.paren.opening = false := by simpa using ho
      by_cases hc : t.is .closeParen = true
      · obtain ⟨d, rfl, hrest⟩ := (Bracket.contained_of_closing ho hc).mp h
        have hm : t.is .comma = false := by simp [Token.eq_token hc]
        have hd : d + 1 + Bracket.paren.openings [t] = d + Bracket.paren.closings [t] := by
          rw [Token.eq_token hc]
          rfl
        rw [if_pos hc, Nat.add_sub_cancel, outerCommaCount_cons hd, hm, ih hrest]
        rfl
      · rw [if_neg hc]
        have hc : t.is Bracket.paren.closing = false := by simpa using hc
        have hd : depth + Bracket.paren.openings [t] = depth + Bracket.paren.closings [t] := by
          rw [Bracket.openings_of_not ho, Bracket.closings_of_not hc]
          rfl
        have hrest := ih ((Bracket.contained_of_other ho hc).mp h)
        rw [outerCommaCount_cons hd, ← hrest]
        by_cases hm : (t.is .comma && depth = 0) = true
        · rw [if_pos hm, if_pos hm]
          rw [of_decide_eq_true (Bool.and_eq_true_iff.mp hm).2]
        · rw [if_neg hm, if_neg hm]
          rfl

/-- There is one piece more than there are commas to cut at. -/
theorem length_commaPieces_eq (depth : Nat) (ts : List Token) :
    (commaPieces depth ts).length = outerCommas depth ts + 1 := by
  induction ts generalizing depth with
  | nil => rfl
  | cons t ts ih =>
    have hextend (d : Nat) : (extendFirst t (commaPieces d ts)).length = outerCommas d ts + 1 := by
      obtain ⟨first, pieces, hp⟩ := List.exists_cons_of_ne_nil (commaPieces_ne_nil d ts)
      rw [← ih d, hp]
      rfl
    rw [commaPieces, outerCommas]
    by_cases ho : t.is .openParen = true
    · rw [if_pos ho, if_pos ho, hextend]
    · rw [if_neg ho, if_neg ho]
      by_cases hc : t.is .closeParen = true
      · rw [if_pos hc, if_pos hc, hextend]
      · rw [if_neg hc, if_neg hc]
        by_cases hm : (t.is .comma && depth = 0) = true
        · rw [if_pos hm, if_pos hm, List.length_cons, ih]
        · rw [if_neg hm, if_neg hm, hextend]

/-- A piece that lies between `depth` open parentheses and at most `limit` that stay open, with no
comma to cut at. -/
def Uncut (limit depth : Nat) (piece : List Token) : Prop :=
  outerCommas depth piece = 0 ∧ ∃ d, d ≤ limit ∧ Bracket.paren.Scan depth piece d

/-- The pieces of tokens that can be scanned can be scanned, and leave no more parentheses open. -/
theorem uncut_commaPieces {depth d : Nat} {ts : List Token} (h : Bracket.paren.Scan depth ts d) :
    ∃ first pieces, commaPieces depth ts = first :: pieces ∧ Uncut d depth first ∧
      ∀ piece ∈ pieces, Uncut d 0 piece := by
  induction h with
  | nil depth => exact ⟨[], [], rfl, ⟨rfl, depth, Nat.le_refl depth, .nil depth⟩, by simp⟩
  | @opened depth d t ts ho _ ih =>
    obtain ⟨first, pieces, hp, ⟨hw, e, he, hs⟩, hrest⟩ := ih
    have ho' : t.is .openParen = true := ho
    refine ⟨t :: first, pieces, ?_, ⟨?_, e, he, .opened ho hs⟩, hrest⟩
    · rw [commaPieces, if_pos ho', hp, extendFirst]
    · rw [outerCommas, if_pos ho', hw]
  | @closed depth d t ts ho hc _ ih =>
    obtain ⟨first, pieces, hp, ⟨hw, e, he, hs⟩, hrest⟩ := ih
    have ho' : ¬ t.is .openParen = true := by simpa using ho
    have hc' : t.is .closeParen = true := hc
    refine ⟨t :: first, pieces, ?_, ⟨?_, e, he, .closed ho hc hs⟩, hrest⟩
    · rw [commaPieces, if_neg ho', if_pos hc', Nat.add_sub_cancel, hp, extendFirst]
    · rw [outerCommas, if_neg ho', if_pos hc', Nat.add_sub_cancel, hw]
  | @passed depth d t ts ho hc _ ih =>
    obtain ⟨first, pieces, hp, ⟨hw, e, he, hs⟩, hrest⟩ := ih
    have ho' : ¬ t.is .openParen = true := by simpa using ho
    have hc' : ¬ t.is .closeParen = true := by simpa using hc
    by_cases hm : (t.is .comma && depth = 0) = true
    · have hzero : depth = 0 := of_decide_eq_true (Bool.and_eq_true_iff.mp hm).2
      subst hzero
      refine ⟨[], first :: pieces, ?_, ⟨rfl, 0, Nat.zero_le d, .nil 0⟩, ?_⟩
      · rw [commaPieces, if_neg ho', if_neg hc', if_pos hm, hp]
      · exact List.forall_mem_cons.mpr ⟨⟨hw, e, he, hs⟩, hrest⟩
    · refine ⟨t :: first, pieces, ?_, ⟨?_, e, he, .passed ho hc hs⟩, hrest⟩
      · rw [commaPieces, if_neg ho', if_neg hc', if_neg hm, hp, extendFirst]
      · rw [outerCommas, if_neg ho', if_neg hc', if_neg hm, hw]

theorem uncut_splitArguments {d : Nat} {ts piece : List Token} (h : Bracket.paren.Scan 0 ts d)
    (hp : piece ∈ splitArguments ts) : Uncut d 0 piece := by
  unfold splitArguments at hp
  split at hp
  · cases hp
  · obtain ⟨first, pieces, he, hfirst, hrest⟩ := uncut_commaPieces h
    rw [he] at hp
    rcases List.mem_cons.mp hp with rfl | hp
    · exact hfirst
    · exact hrest piece hp

/-- No comma of a piece is outside of its parentheses. -/
theorem Uncut.not_outerComma {limit : Nat} {piece : List Token} (h : Uncut limit 0 piece) (i : Nat) :
    ¬ OuterComma 0 piece i := by
  obtain ⟨hw, d, _, hs⟩ := h
  have hcontained := ((Bracket.scan_iff Bracket.paren_distinct).mp hs).1
  rw [outerCommas_eq_count hcontained, outerCommaCount, List.countP_eq_zero] at hw
  intro hi
  have hlt : i < piece.length := (List.getElem?_eq_some_iff.mp hi.1).1
  exact hw i (List.mem_range.mpr hlt) (decide_eq_true hi)

namespace Positional

/-- The slices between commas, for a count that goes wrong where it would be taken below zero. -/
def strictPiecesFrom (ts : List Token) (start position depth : Nat) :
    List Token → Option (List (List Token))
  | [] => do return [← slice? ts start ts.length]
  | t :: rest =>
    if t.is .openParen then strictPiecesFrom ts start (position + 1) (depth + 1) rest
    else if t.is .closeParen then do
      let depth ← oneLess? depth
      strictPiecesFrom ts start (position + 1) depth rest
    else if t.is .comma && depth = 0 then do
      let piece ← slice? ts start position
      return piece :: (← strictPiecesFrom ts (position + 1) (position + 1) 0 rest)
    else strictPiecesFrom ts start (position + 1) depth rest

def strictSplitArguments (ts : List Token) : Option (List (List Token)) :=
  if ts.isEmpty then some [] else strictPiecesFrom ts 0 0 0 ts

/-- The count that stops at zero is not stopped where no more parentheses are closed than opened. -/
theorem strictPiecesFrom_eq {ts rest : List Token} {start position depth : Nat}
    (h : Bracket.paren.Contained depth rest) :
    strictPiecesFrom ts start position depth rest = piecesFrom ts start position depth rest := by
  induction rest generalizing start position depth with
  | nil => rfl
  | cons t rest ih =>
    rw [strictPiecesFrom, piecesFrom]
    by_cases ho : t.is .openParen = true
    · rw [if_pos ho, if_pos ho, ih ((Bracket.contained_of_opening Bracket.paren_distinct ho).mp h)]
    · rw [if_neg ho, if_neg ho]
      have ho : t.is Bracket.paren.opening = false := by simpa using ho
      by_cases hc : t.is .closeParen = true
      · obtain ⟨d, rfl, hrest⟩ := (Bracket.contained_of_closing ho hc).mp h
        rw [if_pos hc, if_pos hc, Nat.add_sub_cancel, ← ih hrest]
        rfl
      · rw [if_neg hc, if_neg hc]
        have hrest := (Bracket.contained_of_other ho (by simpa using hc)).mp h
        by_cases hm : (t.is .comma && depth = 0) = true
        · rw [of_decide_eq_true (Bool.and_eq_true_iff.mp hm).2] at hrest
          rw [if_pos hm, if_pos hm, ih hrest]
        · rw [if_neg hm, if_neg hm, ih hrest]

theorem strictSplitArguments_eq {ts : List Token} (h : Bracket.paren.Contained 0 ts) :
    strictSplitArguments ts = some (TinyScript.splitArguments ts) := by
  rw [← splitArguments_eq, strictSplitArguments, splitArguments, strictPiecesFrom_eq h]

/-- The two counts do differ where a parenthesis is closed that was not open. -/
example : strictSplitArguments [⟨")"⟩] = none ∧ splitArguments [⟨")"⟩] = some [[⟨")"⟩]] := by
  decide

/-- A search that succeeds stops at the end of the shortest level start behind `start`, and what lies
inside is balanced. -/
structure ClosesLevel (b : Bracket) (ts : List Token) (start close : Nat) : Prop where
  shortest : ∃ u, slice? ts start (close + 1) = some u ∧ b.LevelPrefix (ts.drop start) u ∧
    ∀ v, b.LevelPrefix (ts.drop start) v → u.length ≤ v.length
  balanced : ∃ inside, slice? ts (start + 1) close = some inside ∧ b.Contained 0 inside ∧
    b.openings inside = b.closings inside

theorem closesLevel_of_split? {b : Bracket} (hb : b.opening ≠ b.closing) {t : Token}
    (ht : t.is b.opening = true) {ts inner inside after : List Token} {start : Nat}
    (h : ts.drop start = t :: inner) (hc : b.split? 0 inner = some (inside, after)) :
    ClosesLevel b ts start (start + 1 + inside.length) := by
  have hinside := (closes_of_split? h ht hc).slice_inside
  obtain ⟨hscan, hinner⟩ := Bracket.scan_of_split? hc
  obtain ⟨hcontained, hcount⟩ := (Bracket.scan_iff hb).mp hscan
  obtain ⟨hlevel, hshortest⟩ := Bracket.levelPrefix_of_split? hb ht hc
  have hts : ts = ts.take start ++ (t :: (inside ++ [b.closing.token]) ++ after) := by
    rw [List.cons_append, List.append_assoc, List.singleton_append, ← hinner]
    exact eq_take_append_of_drop_eq h
  have hlen : (ts.take start).length = start :=
    List.length_take_of_le (Nat.le_of_lt (lt_length_of_drop_eq_cons h))
  have hslice : slice? ts start (start + 1 + inside.length + 1) =
      some (t :: (inside ++ [b.closing.token])) := by
    apply slice?_append hts hlen.symm
    rw [hlen, List.length_cons, List.length_append, List.length_singleton]
    omega
  rw [← h] at hlevel hshortest
  exact ⟨⟨_, hslice, hlevel, hshortest⟩, ⟨inside, hinside, hcontained, by omega⟩⟩

/-- The search for a closing bracket does not go wrong, and it succeeds if the counts of opened and
closed brackets ever are level again. -/
theorem findClosing_level {b : Bracket} (hb : b.opening ≠ b.closing) {ts : List Token} {start : Nat}
    (h : ts[start]? = some b.opening.token) :
    ∃ found, findClosing b ts start = some found ∧
      (found.isSome = true ↔ ∃ u, b.LevelPrefix (ts.drop start) u) ∧
      ∀ close, found = some close → ClosesLevel b ts start close := by
  have ht : b.opening.token.is b.opening = true := by simp
  obtain ⟨inner, hdrop⟩ : ∃ inner, ts.drop start = b.opening.token :: inner := by
    rw [← List.head?_drop] at h
    exact List.head?_eq_some_iff.mp h
  refine ⟨_, findClosing_eq hdrop ht, ?_⟩
  cases hc : b.split? 0 inner with
  | none =>
    refine ⟨⟨by simp, ?_⟩, by simp⟩
    rintro ⟨u, hu⟩
    rw [hdrop] at hu
    exact absurd hu (Bracket.not_levelPrefix_of_split?_eq_none hb ht hc)
  | some cut =>
    obtain ⟨inside, after⟩ := cut
    have hcloses := closesLevel_of_split? hb ht hdrop hc
    obtain ⟨u, _, hu, _⟩ := hcloses.shortest
    refine ⟨⟨fun _ => ⟨u, hu⟩, fun _ => rfl⟩, ?_⟩
    intro close hs
    cases hs
    exact hcloses

end Positional

theorem Bracket.Contained.exists_scan {ts : List Token} (h : Bracket.paren.Contained 0 ts) :
    ∃ d, Bracket.paren.openings ts = d + Bracket.paren.closings ts ∧ Bracket.paren.Scan 0 ts d := by
  have hle := h ts (List.prefix_refl ts)
  refine ⟨Bracket.paren.openings ts - Bracket.paren.closings ts, by omega, ?_⟩
  exact (Bracket.scan_iff Bracket.paren_distinct).mpr ⟨h, by omega⟩

/-- What cutting at commas makes of tokens: nothing of none, else one piece more than there are commas
outside of parentheses, none of which is left in a piece. -/
structure SplitsInto (ts : List Token) (pieces : List (List Token)) : Prop where
  nil : ts = [] → pieces = []
  length : ts ≠ [] → pieces.length = outerCommaCount 0 ts + 1
  contained : ∀ piece ∈ pieces, Bracket.paren.Contained 0 piece
  level : Bracket.paren.openings ts = Bracket.paren.closings ts →
    ∀ piece ∈ pieces, Bracket.paren.openings piece = Bracket.paren.closings piece
  whole : ∀ piece ∈ pieces, ∀ i, ¬ OuterComma 0 piece i
  joined : joinCommas pieces = ts

theorem splitsInto_splitArguments {ts : List Token} (h : Bracket.paren.Contained 0 ts) :
    SplitsInto ts (splitArguments ts) := by
  obtain ⟨d, hcount, hscan⟩ := h.exists_scan
  refine ⟨?_, ?_, ?_, ?_, ?_, joinCommas_splitArguments ts⟩
  · rintro rfl
    rfl
  · intro hne
    rw [splitArguments, if_neg (by simpa using hne), length_commaPieces_eq, outerCommas_eq_count h]
  · intro piece hp
    obtain ⟨_, e, _, hs⟩ := uncut_splitArguments hscan hp
    exact ((Bracket.scan_iff Bracket.paren_distinct).mp hs).1
  · intro hlevel piece hp
    obtain ⟨_, e, he, hs⟩ := uncut_splitArguments hscan hp
    have hpiece := ((Bracket.scan_iff Bracket.paren_distinct).mp hs).2
    omega
  · intro piece hp
    exact (uncut_splitArguments hscan hp).not_outerComma

/-- Finding the closing parenthesis and cutting at commas fit together. From an opening parenthesis on,
the search succeeds if some start of the tokens closes as many parentheses as it opens; it then stops
at the end of the shortest one, and what lies inside is balanced. Tokens in which at no point more
parentheses are closed than opened are cut with a count that is never stopped at zero, into pieces of
the same kind. -/
theorem findClosing_and_splitArguments_agree :
    (∀ (ts : List Token) (start : Nat), ts[start]? = some Symbol.openParen.token →
      ∃ found, Positional.findClosing .paren ts start = some found ∧
        (found.isSome = true ↔ ∃ u, Bracket.paren.LevelPrefix (ts.drop start) u) ∧
        ∀ close, found = some close → Positional.ClosesLevel .paren ts start close) ∧
    ∀ ts : List Token, Bracket.paren.Contained 0 ts →
      Positional.splitArguments ts = some (splitArguments ts) ∧
      Positional.strictSplitArguments ts = some (splitArguments ts) ∧
      SplitsInto ts (splitArguments ts) := by
  refine ⟨fun ts start h => Positional.findClosing_level Bracket.paren_distinct h, ?_⟩
  intro ts h
  exact ⟨Positional.splitArguments_eq ts, Positional.strictSplitArguments_eq h,
    splitsInto_splitArguments h⟩

/-- With a call among the arguments, the parenthesis that closes it is passed. -/
theorem findClosing_and_splitArguments_agree_call :
    Positional.ClosesLevel .paren (["(", "g", "(", ",", ")", ",", "c", ")"].map Token.mk) 0 7 ∧
    SplitsInto (["g", "(", ",", ")", ",", "c"].map Token.mk)
      (splitArguments (["g", "(", ",", ")", ",", "c"].map Token.mk)) := by
  have hscan : Bracket.paren.Scan 0 (["g", "(", ",", ")", ",", "c"].map Token.mk) 0 :=
    .passed rfl rfl (.opened rfl (.passed rfl rfl (.closed rfl rfl
      (.passed rfl rfl (.passed rfl rfl (.nil 0))))))
  have hcontained := ((Bracket.scan_iff Bracket.paren_distinct).mp hscan).1
  obtain ⟨found, hfound, _, hcloses⟩ := findClosing_and_splitArguments_agree.1
    (["(", "g", "(", ",", ")", ",", "c", ")"].map Token.mk) 0 rfl
  have hseven : found = some 7 := (Option.some.inj hfound).symm
  exact ⟨hcloses 7 hseven, (findClosing_and_splitArguments_agree.2 _ hcontained).2.2⟩

end TinyScript
