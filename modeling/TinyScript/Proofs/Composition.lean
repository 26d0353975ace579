import TinyScript.Proofs.Depth
import TinyScript.Proofs.Grammar
import TinyScript.Proofs.Joins

/-!
Sources in two pieces. A source that is cut between two units is read and run like the two pieces
one after the other.
-/

namespace TinyScript

/-- The tokens end like a unit that is not left open, or there are none. -/
def endsUnit (ts : List Token) : Bool :=
  ts.getLast?.all fun t => t.is .semicolon || t.is .closeBrace

theorem not_isWord_of_endsUnit {ts : List Token} (h : endsUnit ts = true) {t : Token}
    (ht : t ∈ ts.getLast?) : ¬ t.IsWord := by
  rw [endsUnit, Option.mem_def.mp ht, Option.all_some] at h
  rcases Bool.or_eq_true_iff.mp h with hs | hc
  · rw [Token.eq_token hs]
    exact not_isWord_symbol _
  · rw [Token.eq_token hc]
    exact not_isWord_symbol _

theorem endsUnit_of_append {u ts : List Token} (h : endsUnit (u ++ ts) = true) :
    endsUnit ts = true := by
  cases ts with
  | nil => rfl
  | cons t ts => simpa [endsUnit, List.getLast?_cons] using h

theorem Inline.endsUnit_eq_false {u : List Token} (h : Inline u) (hu : u ≠ []) :
    endsUnit u = false := by
  obtain ⟨hs, _, hc⟩ := h _ (List.getLast_mem hu)
  rw [endsUnit, List.getLast?_eq_some_getLast hu, Option.all_some, hs, hc]
  rfl

/-- Behind a program that ends with a unit, reading starts afresh. -/
theorem Derives.parse_append {as : List Token} {p : Program} (h : Derives as p)
    (he : endsUnit as = true) (bs : List Token) :
    TinyScript.parse (as ++ bs) = (TinyScript.parse bs).map (p ++ ·) := by
  have glue : ∀ (n : Node) (ns : Program),
      ((TinyScript.parse bs).map (ns ++ ·)).map (n :: ·) =
        (TinyScript.parse bs).map (n :: ns ++ ·) := by
    intro n ns
    cases TinyScript.parse bs <;> rfl
  induction h with
  | nil =>
    rw [List.nil_append]
    cases TinyScript.parse bs <;> rfl
  | @skip ts ns h ih =>
    rw [List.cons_append, parse_semicolon, ih (endsUnit_of_append (u := [_]) he)]
  | @unit u ts n ns hu h ih =>
    have hts : endsUnit ts = true := endsUnit_of_append (u := [_]) (endsUnit_of_append he)
    rw [List.append_assoc, List.cons_append, hu.parse_append, ih hts, glue]
  | last hu =>
    rw [hu.inline.endsUnit_eq_false hu.ne_nil] at he
    cases he
  | function hn hp hb h ihb ih =>
    rw [List.append_assoc, parse_functionTokens hn hp hb.balanced, hb.parse,
      ih (endsUnit_of_append he)]
    exact glue _ _

/-- Behind nodes that do not return, a sequence goes on with what the last of them gave. -/
theorem evalNodes_append (host : Host) (call : Caller) (last : Option Value) (p q : List Node) :
    evalNodes host call last (p ++ q) = evalNodes host call last p >>= fun
      | .finished last => evalNodes host call last q
      | .returned v => return .returned v := by
  induction p generalizing last with
  | nil => rw [List.nil_append, evalNodes, pure_bind]
  | cons n p ih =>
    rw [List.cons_append, evalNodes, evalNodes, bind_assoc]
    apply bind_congr
    rintro (last | v)
    · exact ih last
    · rw [pure_bind]

/-- What was given before counts only if nothing comes behind. -/
theorem evalNodes_of_ne_nil {q : List Node} (hq : q ≠ []) (host : Host) (call : Caller)
    (last last' : Option Value) :
    evalNodes host call last q = evalNodes host call last' q := by
  cases q with
  | nil => exact absurd rfl hq
  | cons n q => rfl

/-- Whether a node is a return. -/
def Node.isReturn : Node → Bool
  | .ret _ => true
  | _ => false

/-- A computation succeeds if its first part does and then the second. -/
theorem Eval.on_bind_eq_ok {α β : Type} {x : Eval α} {f : α → Eval β} {m m' : Machine} {b : β}
    (h : (x >>= f).on m = some (.ok b, m')) :
    ∃ a m₁, x.on m = some (.ok a, m₁) ∧ (f a).on m₁ = some (.ok b, m') := by
  rw [Eval.on_bind] at h
  split at h
  · cases h
  · cases h
  · rename_i a m₁ hx
    exact ⟨a, m₁, hx, h⟩

/-- Only a return ends a sequence before its end. -/
theorem finished_of_evalNode {host : Host} {call : Caller} {n : Node}
    (hn : n.isReturn = false) {m m' : Machine} {c : Completion}
    (h : (evalNode host call n).on m = some (.ok c, m')) : ∃ last, c = .finished last := by
  fun_cases evalNode host call n with
  | case1 form name e =>
    rw [evalNode] at h
    obtain ⟨_, m₁, _, h⟩ := Eval.on_bind_eq_ok h
    obtain ⟨v, m₂, _, h⟩ := Eval.on_bind_eq_ok h
    obtain ⟨_, m₃, _, h⟩ := Eval.on_bind_eq_ok h
    cases h
    exact ⟨none, rfl⟩
  | case2 e => cases hn
  | case3 d =>
    rw [evalNode] at h
    obtain ⟨_, m₁, _, h⟩ := Eval.on_bind_eq_ok h
    cases h
    exact ⟨none, rfl⟩
  | case4 callee arguments =>
    rw [evalNode] at h
    obtain ⟨v, m₁, _, h⟩ := Eval.on_bind_eq_ok h
    cases h
    exact ⟨v, rfl⟩
  | case5 e hf hc =>
    rw [evalNode.eq_5 host call e hf hc] at h
    obtain ⟨v, m₁, _, h⟩ := Eval.on_bind_eq_ok h
    cases h
    exact ⟨some v, rfl⟩

theorem finished_of_evalNodes {host : Host} {call : Caller} {p : List Node}
    (hp : ∀ n ∈ p, n.isReturn = false) {last : Option Value} {m m' : Machine} {c : Completion}
    (h : (evalNodes host call last p).on m = some (.ok c, m')) :
    ∃ last', c = .finished last' := by
  induction p generalizing last m with
  | nil =>
    cases h
    exact ⟨last, rfl⟩
  | cons n p ih =>
    rw [evalNodes] at h
    obtain ⟨c', m₁, hn, h⟩ := Eval.on_bind_eq_ok h
    obtain ⟨last', rfl⟩ := finished_of_evalNode (hp n (by simp)) hn
    exact ih (fun n hm => hp n (by simp [hm])) h

/-- Two programs in a row. Nothing of the first is left but what it did to the machine. -/
theorem on_evalProgram_append (host : Host) (depth : Nat) {p q : Program}
    (hp : ∀ n ∈ p, n.isReturn = false) (hq : q ≠ []) (m : Machine) :
    (evalProgram host depth (p ++ q)).on m =
      (evalProgram host depth p >>= fun _ => evalProgram host depth q).on m := by
  rw [evalProgram, evalProgram, evalNodes_append, bind_assoc, bind_assoc, Eval.on_bind,
    Eval.on_bind]
  cases ho : (evalNodes host (callWithin host depth) none p).on m with
  | none => rfl
  | some outcome =>
    obtain ⟨result, m'⟩ := outcome
    cases result with
    | error e => rfl
    | ok c =>
      obtain ⟨last, rfl⟩ := finished_of_evalNodes hp ho
      simp only [pure_bind]
      rw [evalNodes_of_ne_nil hq host _ last none]
      rfl

theorem execute_append (host : Host) (depth : Nat) {p q : Program}
    (hp : ∀ n ∈ p, n.isReturn = false) (hq : q ≠ []) (m : Machine) :
    execute host depth (p ++ q) m =
      match execute host depth p m with
      | none => none
      | some (.error e, m') => some (.error e, m')
      | some (.ok _, m') => execute host depth q m' := by
  rw [execute, execute, on_evalProgram_append host depth hp hq, Eval.on_bind]
  cases (evalProgram host depth p).on m with
  | none => rfl
  | some outcome =>
    obtain ⟨result, m'⟩ := outcome
    cases result <;> rfl

theorem run_of_readProgram {host : Host} {depth : Nat} {source : String} {p : Program}
    (h : readProgram source = .ok p) (m : Machine) :
    run host depth source m = execute host depth p m := by
  rw [run, h]

theorem readProgram_eq_ok {source : String} {ts : List Token} {p : Program}
    (ht : tokenize source = .ok ts) (hp : parse ts = .ok p) : readProgram source = .ok p := by
  simp only [readProgram, ht, hp, Except.mapError, bind, Except.bind]

/-- A source that ends with a unit is read apart from what is written behind it. -/
theorem readProgram_append {a b : String} {as bs : List Token} {p q : Program}
    (ha : tokenize a = .ok as) (hb : tokenize b = .ok bs) (hp : parse as = .ok p)
    (hq : parse bs = .ok q) (he : endsUnit as = true) :
    readProgram (a ++ b) = .ok (p ++ q) := by
  have ht : tokenize (a ++ b) = .ok (as ++ bs) := by
    apply tokenize_append ha hb
    intro t hm _ _ hw
    exact absurd hw (not_isWord_of_endsUnit he hm)
  apply readProgram_eq_ok ht
  rw [(derives_of_parse hp).parse_append he, hq]
  rfl

theorem run_of_readProgram_append (host : Host) {a b : String} {p q : Program}
    (ha : readProgram a = .ok p) (hb : readProgram b = .ok q)
    (hab : readProgram (a ++ b) = .ok (p ++ q)) (hr : ∀ n ∈ p, n.isReturn = false)
    (hne : q ≠ []) (m : Machine) (depth : Nat) :
    run host depth (a ++ b) m =
      match run host depth a m with
      | none => none
      | some (.error e, m') => some (.error e, m')
      | some (.ok _, m') => run host depth b m' := by
  simp only [run_of_readProgram ha, run_of_readProgram hb, run_of_readProgram hab,
    execute_append host depth hr hne]

/-- A source in two pieces runs like the first piece and then, if that does not fail, the second
on the machine that the first has left. This holds within every depth of calls, and so for runs
of any depth. -/
theorem run_append (host : Host) {a b : String} {as bs : List Token} {p q : Program}
    (ha : tokenize a = .ok as) (hb : tokenize b = .ok bs) (hp : parse as = .ok p)
    (hq : parse bs = .ok q) (he : endsUnit as = true) (hr : ∀ n ∈ p, n.isReturn = false)
    (hne : q ≠ []) (m : Machine) :
    (∀ depth, run host depth (a ++ b) m =
      match run host depth a m with
      | none => none
      | some (.error e, m') => some (.error e, m')
      | some (.ok _, m') => run host depth b m') ∧
    ∀ r, RunsTo host (a ++ b) m r ↔
      (∃ e m', RunsTo host a m (.error e, m') ∧ r = (.error e, m')) ∨
        ∃ v m', RunsTo host a m (.ok v, m') ∧ RunsTo host b m' r := by
  have hrun := run_of_readProgram_append host (readProgram_eq_ok ha hp)
    (readProgram_eq_ok hb hq) (readProgram_append ha hb hp hq he) hr hne m
  refine ⟨hrun, fun r => ⟨?_, ?_⟩⟩
  · rintro ⟨depth, h⟩
    rw [hrun] at h
    split at h
    · cases h
    · rename_i e m' ho
      cases h
      exact .inl ⟨e, m', ⟨depth, ho⟩, rfl⟩
    · rename_i v m' ho
      exact .inr ⟨v, m', ⟨depth, ho⟩, ⟨depth, h⟩⟩
  · rintro (⟨e, m', ⟨depth, ho⟩, rfl⟩ | ⟨v, m', ⟨depth, ho⟩, ⟨depth', h⟩⟩)
    · refine ⟨depth, ?_⟩
      rw [hrun, ho]
    · -- the deeper of the two runs is deep enough for both
      refine ⟨max depth depth', ?_⟩
      rw [hrun, run_of_le (Nat.le_max_left depth depth') ho]
      exact run_of_le (Nat.le_max_right depth depth') h

/-- What the first piece declares is there for the second. -/
theorem run_append_declare :
    RunsTo .standard ("let a = 2;" ++ "a + 1;") ⟨.empty, .unlimited⟩
      (.ok (some (.number 3)), ⟨⟨[("a", .number 2)], by decide⟩, .unlimited⟩) := by
  have ha : tokenize "let a = 2;" = .ok [⟨"let"⟩, ⟨"a"⟩, ⟨"="⟩, ⟨"2"⟩, ⟨";"⟩] :=
    tokenize_eq_ok_iff.mpr ⟨rfl, rfl, rfl, rfl, rfl, rfl⟩
  have hb : tokenize "a + 1;" = .ok [⟨"a"⟩, ⟨"+"⟩, ⟨"1"⟩, ⟨";"⟩] :=
    tokenize_eq_ok_iff.mpr ⟨rfl, rfl, rfl, rfl, rfl⟩
  have hu : SimpleUnit [⟨"let"⟩, ⟨"a"⟩, ⟨"="⟩, ⟨"2"⟩] (.declare .mutable "a" (.number "2")) :=
    .declare .mutable rfl (parseExpr_flat (.number rfl))
  have hv : SimpleUnit [⟨"a"⟩, ⟨"+"⟩, ⟨"1"⟩]
      (.expr (.binary .add (.variable "a") (.number "1"))) :=
    .expr (parseExpr_flat (.binary .add (.name rfl) rfl (.number rfl)))
  have hp := (Derives.unit hu .nil).parse
  have hq := (Derives.unit hv .nil).parse
  have h := run_append .standard ha hb hp hq rfl (by simp [Node.isReturn]) (by simp)
    ⟨.empty, .unlimited⟩
  refine (h.2 _).mpr (.inr ⟨none, ⟨⟨[("a", .number 2)], by decide⟩, .unlimited⟩, ?_, ?_⟩)
  · exact ⟨0, run_of_readProgram (readProgram_eq_ok ha hp) _⟩
  · exact ⟨0, run_of_readProgram (readProgram_eq_ok hb hq) _⟩

end TinyScript
