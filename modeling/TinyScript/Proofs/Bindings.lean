import TinyScript.Proofs.Composition
import TinyScript.Proofs.Discipline

/-!
What a run binds. A node is carried out as a whole: it binds its name if it comes to its end, and
otherwise leaves the scope as it was, whatever was called on the way. This rests on how programs
are written, with functions standing on their own.
-/

namespace TinyScript

/-- Evaluation in a scope that stays as it is. -/
def unchanging (s : Scope) : Discipline where
  scope := (· = s)
  value _ := True
  callee _ := True
  error _ := True
  stuck := True

section

variable (host : Host) (call : Caller)

theorem unchanging_rules (s : Scope) : (unchanging s).Rules host call :=
  .of_forall (fun _ => trivial) (fun _ => trivial) trivial

theorem unchanging_admits (s : Scope) {o : Occurrence} {name : String}
    (ho : o.lookup? = some name) : (unchanging s).Admits host o := by
  rcases Occurrence.lookup?_eq_some_iff.mp ho with rfl | rfl
  · exact fun _ _ => resultIs_true _
  · exact fun _ _ => resultIs_true _

/-- Binding a name adds it, or fails. -/
theorem unchanging_declare (s : Scope) (name : String) (v : Value) :
    ResultIs (fun t => ∃ v, t.bindings = (name, v) :: s.bindings) (fun _ => True)
      (s.declare name v) := by
  cases hd : s.declare name v with
  | ok t => exact ⟨v, (Scope.bindings_of_declare hd).2⟩
  | error e => trivial

/-- A node binds its name on top of the scope `s`. If it fails, it leaves the scope as it was. -/
theorem Node.Plain.binds {n : Node} (hp : n.Plain) (s : Scope) :
    Eval.Ensures True (· = s) (evalNode host call n)
      (fun _ t => ∃ added, t.bindings = added ++ s.bindings ∧
        added.map Prod.fst = n.binds?.toList)
      (fun _ t => t = s) := by
  have hbound : ∀ name ∈ n.binds?, ∀ t v, t = s → True →
      ResultIs (fun t => ∃ v, t.bindings = (name, v) :: s.bindings) (fun _ => True)
        (t.declare name v) := by
    rintro name _ t v rfl _
    exact unchanging_declare t name v
  refine (Discipline.evalNode_ensures (unchanging_rules host call s) hp
    (fun _ _ _ ho => unchanging_admits host s ho) (fun _ _ => trivial) hbound).mono
    (fun _ ht => ht) ?_ fun _ _ h => h.1
  rintro c t ⟨ht, _⟩
  cases hm : n.binds? with
  | none =>
    rw [hm] at ht
    exact ⟨[], congrArg Scope.bindings ht, rfl⟩
  | some name =>
    rw [hm] at ht
    obtain ⟨v, ht⟩ := ht
    exact ⟨[(name, v)], ht, rfl⟩

end

/-- The nodes that come to their end, before one returns or fails or there are no more. -/
def completed (host : Host) (call : Caller) : List Node → Machine → List Node
  | [], _ => []
  | n :: ns, m =>
    match (evalNode host call n).on m with
    | some (.ok (.finished _), m') => n :: completed host call ns m'
    | _ => []

/-- Where a program ends, and so with which kind of result, if the nodes `done` come to their
end. -/
inductive Ends (done : Program) : Program → Except Error (Option Value) → Prop where
  | atEnd (v : Option Value) : Ends done done (.ok v)
  | atReturn (e : Expr) (rest : Program) (v : Value) :
      Ends done (done ++ .ret e :: rest) (.ok (some v))
  | atError (n : Node) (rest : Program) (e : EvalError) :
      Ends done (done ++ n :: rest) (.error (.eval e))

theorem Ends.cons {done p : Program} {r : Except Error (Option Value)} (h : Ends done p r)
    (n : Node) : Ends (n :: done) (n :: p) r := by
  cases h with
  | atEnd v => exact .atEnd v
  | atReturn e rest v => exact .atReturn e rest v
  | atError n' rest e => exact .atError n' rest e

/-- The result of a program whose nodes ended in this way. -/
def outcomeOfEnding (ending : Except EvalError Completion) : Except Error (Option Value) :=
  (ending.map Completion.result).mapError .eval

/-- Only a return ends a sequence early with a value. -/
theorem eq_ret_of_evalNode {host : Host} {call : Caller} {n : Node} {m m' : Machine} {v : Value}
    (h : (evalNode host call n).on m = some (.ok (.returned v), m')) : ∃ e, n = .ret e := by
  cases n with
  | ret e => exact ⟨e, rfl⟩
  | declare form name e =>
    obtain ⟨last, hc⟩ := finished_of_evalNode rfl h
    cases hc
  | expr e =>
    obtain ⟨last, hc⟩ := finished_of_evalNode rfl h
    cases hc

/-- A sequence binds the names of the nodes that come to their end, in order, and nothing else. -/
theorem evalNodes_binds {host : Host} {call : Caller} {ns : List Node}
    (hp : ∀ n ∈ ns, n.Plain) {last : Option Value} {m m' : Machine}
    {ending : Except EvalError Completion}
    (h : (evalNodes host call last ns).on m = some (ending, m')) :
    Ends (completed host call ns m) ns (outcomeOfEnding ending) ∧
      ∃ added, m'.scope.bindings = added ++ m.scope.bindings ∧
        (added.map Prod.fst).reverse = (completed host call ns m).filterMap Node.binds? := by
  induction ns generalizing last m with
  | nil =>
    cases h
    exact ⟨.atEnd last, [], rfl, rfl⟩
  | cons n ns ih =>
    have hl := (hp n (by simp)).binds host call m.scope m rfl
    rw [evalNodes, Eval.on_bind] at h
    rw [completed]
    cases ho : (evalNode host call n).on m with
    | none =>
      rw [ho] at h
      cases h
    | some outcome =>
      obtain ⟨result, m₁⟩ := outcome
      rw [ho] at h hl
      cases result with
      | error e =>
        cases h
        exact ⟨.atError n ns e, [], by rw [hl]; rfl, rfl⟩
      | ok c =>
        cases c with
        | returned v =>
          cases h
          obtain ⟨e, rfl⟩ := eq_ret_of_evalNode ho
          obtain ⟨added, hb, hn⟩ := hl
          exact ⟨.atReturn e ns v, added, hb, by rw [hn]; rfl⟩
        | finished last' =>
          obtain ⟨added, hb, hn⟩ := hl
          obtain ⟨he, later, hb', hn'⟩ := ih (fun n hm => hp n (by simp [hm])) h
          refine ⟨he.cons n, later ++ added, by rw [hb', hb, List.append_assoc], ?_⟩
          rw [List.map_append, List.reverse_append, hn', hn, List.filterMap_cons]
          cases n.binds? <;> rfl

/-- What a run of `p` does to the machine, the nodes `done` having come to their end. -/
structure RunBinds (p done : Program) (m : Machine) (r : Except Error (Option Value))
    (m' : Machine) : Prop where
  ends : Ends done p r
  /-- The newest binding stands first. -/
  bindings : ∃ added, m'.scope.bindings = added ++ m.scope.bindings ∧
    (added.map Prod.fst).reverse = done.filterMap Node.binds?
  fresh : ∀ name ∈ done.filterMap Node.binds?, m.scope.contains name = false
  size : m'.scope.size = m.scope.size + done.countP (·.binds?.isSome)

/-- New names were not bound before, since a scope binds no name twice. -/
theorem RunBinds.of_bindings {p done : Program} {m m' : Machine}
    {r : Except Error (Option Value)} (he : Ends done p r) {added : List (String × Value)}
    (hb : m'.scope.bindings = added ++ m.scope.bindings)
    (hn : (added.map Prod.fst).reverse = done.filterMap Node.binds?) :
    RunBinds p done m r m' := by
  refine ⟨he, ⟨added, hb, hn⟩, ?_, ?_⟩
  · intro name hm
    rw [← hn, List.mem_reverse] at hm
    have hnodup := m'.scope.nodup
    rw [hb, List.map_append] at hnodup
    apply Bool.eq_false_iff.mpr
    intro hc
    exact (List.nodup_append.mp hnodup).2.2 name hm name (Scope.mem_keys_iff.mpr hc) rfl
  · have hlen := congrArg List.length hn
    rw [List.length_reverse, List.length_map, List.length_filterMap_eq_countP] at hlen
    rw [Scope.size, Scope.size, hb, List.length_append]
    omega

theorem on_evalProgram (host : Host) (depth : Nat) (p : Program) (m : Machine) :
    (evalProgram host depth p).on m =
      ((evalNodes host (callWithin host depth) none p).on m).map fun (ending, m') =>
        (ending.map Completion.result, m') := by
  rw [evalProgram, Eval.on_bind]
  cases (evalNodes host (callWithin host depth) none p).on m with
  | none => rfl
  | some outcome =>
    obtain ⟨ending, m'⟩ := outcome
    cases ending <;> rfl

theorem execute_eq_some {host : Host} {depth : Nat} {p : Program} {m m' : Machine}
    {r : Except Error (Option Value)} (h : execute host depth p m = some (r, m')) :
    ∃ ending, (evalNodes host (callWithin host depth) none p).on m = some (ending, m') ∧
      outcomeOfEnding ending = r := by
  rw [execute, on_evalProgram, Option.map_map] at h
  obtain ⟨⟨ending, m₁⟩, ho, he⟩ := Option.map_eq_some_iff.mp h
  cases he
  exact ⟨ending, ho, rfl⟩

theorem parse_of_readProgram {source : String} {p : Program} (h : readProgram source = .ok p) :
    ∃ ts, parse ts = .ok p := by
  unfold readProgram at h
  obtain ⟨ts, _, h⟩ := except_bind_eq_ok h
  refine ⟨ts, ?_⟩
  cases hp : parse ts with
  | error e =>
    rw [hp] at h
    cases h
  | ok q =>
    rw [hp] at h
    cases h
    rfl

/-- A source that cannot be read changes nothing. Otherwise a run, however it ends, binds one new
name for each declaration and each function among the top-level nodes that came to their end, and
nothing else: not for the node that returned or failed, nor for any call. -/
theorem run_binds (host : Host) (source : String) (m : Machine) (depth : Nat) :
    (∀ e, readProgram source = .error e → run host depth source m = some (.error e, m)) ∧
    ∀ p r m', readProgram source = .ok p → run host depth source m = some (r, m') →
      RunBinds p (completed host (callWithin host depth) p m) m r m' := by
  constructor
  · intro e he
    rw [run, he]
  · intro p r m' hp hr
    obtain ⟨ts, hparse⟩ := parse_of_readProgram hp
    rw [run_of_readProgram hp] at hr
    obtain ⟨ending, hn, rfl⟩ := execute_eq_some hr
    obtain ⟨he, added, hb, hnames⟩ := evalNodes_binds (derives_of_parse hparse).plain hn
    exact .of_bindings he hb hnames

/-- The function stays bound, while the declaration fails in the call and binds nothing. A quote
that is not closed leaves everything as it was. -/
theorem run_binds_failing_call :
    RunBinds
      [.expr (.function ⟨"f", [], [.ret (.variable "b")]⟩), .declare .mutable "a" (.call "f" [])]
      [.expr (.function ⟨"f", [], [.ret (.variable "b")]⟩)] ⟨.empty, .unlimited⟩
      (.error (.eval (.unbound "b")))
      ⟨⟨[("f", .function ⟨"f", [], [.ret (.variable "b")]⟩)], by decide⟩, .unlimited⟩ ∧
    run .standard 0 "\"" ⟨.empty, .unlimited⟩ =
      some (.error (.lex (.unclosedQuote 0)), ⟨.empty, .unlimited⟩) := by
  have ht : tokenize "func f() \x7b return b \x7d let a = f()" =
      .ok [⟨"func"⟩, ⟨"f"⟩, ⟨"("⟩, ⟨")"⟩, ⟨"\x7b"⟩, ⟨"return"⟩, ⟨"b"⟩, ⟨"\x7d"⟩, ⟨"let"⟩, ⟨"a"⟩,
        ⟨"="⟩, ⟨"f"⟩, ⟨"("⟩, ⟨")"⟩] :=
    tokenize_eq_ok_iff.mpr
      ⟨rfl, rfl, rfl, rfl, rfl, rfl, rfl, rfl, rfl, rfl, rfl, rfl, rfl, rfl, rfl⟩
  have hcall : (Expr.call "f" []).Written := .call rfl (by simp)
  have hd : Derives _ [.expr (.function ⟨"f", [], [.ret (.variable "b")]⟩),
      .declare .mutable "a" (.call "f" [])] :=
    .function rfl (by simp) (.last (.ret (parseExpr_flat (.name rfl))))
      (.last (.declare .mutable rfl (parseExpr_flat hcall)))
  have hp := readProgram_eq_ok ht hd.parse
  have hpull : (Cursor.ofText "\"").pull = (some (.error (.unclosedQuote 0)), ⟨[], 1⟩) := rfl
  have hq : readProgram "\"" = .error (.lex (.unclosedQuote 0)) := by
    rw [readProgram, tokenize, Cursor.items_of_some hpull]
    rfl
  exact ⟨(run_binds .standard _ ⟨.empty, .unlimited⟩ 1).2 _ _ _ hp (run_of_readProgram hp _),
    (run_binds .standard "\"" ⟨.empty, .unlimited⟩ 0).1 _ hq⟩

end TinyScript
