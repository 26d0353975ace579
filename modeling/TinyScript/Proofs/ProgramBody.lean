import TinyScript.Proofs.Bindings

/-!
Programs as bodies. A program can be made the body of a function without parameters. A call of the
function then does what the program does at the top level; the difference is that the scope of the
program is lost with the call, and that only a return gives the call a value.
-/

namespace TinyScript

/-- The source of a function with the body `source`, and of a call of it. -/
def wrapped (name source : String) : String :=
  "func " ++ name ++ "() \x7b" ++ source ++ "\x7d " ++ name ++ "();"

/-- The call at the end of a wrapped source. -/
def callTokens (name : String) : List Token :=
  [⟨name⟩, Symbol.openParen.token, Symbol.closeParen.token, Symbol.semicolon.token]

/-- Whatever stands in the body, its tokens are those of the source, and the function and the call
are around them. -/
theorem tokenize_wrapped {name source : String} {ts : List Token} (hw : Token.IsWord ⟨name⟩)
    (h : tokenize source = .ok ts) :
    tokenize (wrapped name source) = .ok (functionTokens name [] ts ++ callTokens name) := by
  have hname : tokenize name = .ok [⟨name⟩] := tokenize_text (.word hw)
  have hfunc : tokenize "func" = .ok [Keyword.func.token] := tokenize_keyword .func
  have hblock : tokenize "() \x7b" = .ok (Symbol.openParen.token ::
      [Symbol.closeParen.token, Symbol.openBrace.token]) :=
    tokenize_eq_ok_iff.mpr ⟨rfl, rfl, rfl, rfl⟩
  have hclose : tokenize "\x7d " = .ok [Symbol.closeBrace.token] :=
    tokenize_eq_ok_iff.mpr ⟨rfl, rfl⟩
  have hcall : tokenize "();" = .ok (Symbol.openParen.token ::
      [Symbol.closeParen.token, Symbol.semicolon.token]) :=
    tokenize_eq_ok_iff.mpr ⟨rfl, rfl, rfl, rfl⟩
  have hhead : tokenize ("func" ++ " " ++ name ++ "() \x7b") =
      .ok (signatureTokens name [] ++ [Symbol.openBrace.token]) := by
    rw [tokenize_before_symbol (tokenize_spaced hfunc hname) hblock]
    rfl
  have hbody := tokenize_before_symbol (tokenize_behind_symbol hhead h) hclose
  have hall := tokenize_before_symbol (tokenize_behind_symbol hbody hname) hcall
  have ht : wrapped name source =
      "func" ++ " " ++ name ++ "() \x7b" ++ source ++ "\x7d " ++ name ++ "();" := rfl
  rw [ht, hall]
  simp [functionTokens, callTokens]

theorem derives_wrapped {name : String} {ts : List Token} {p : Program}
    (hn : Token.isName ⟨name⟩ = true) (h : Derives ts p) :
    Derives (functionTokens name [] ts ++ callTokens name)
      [.expr (.function ⟨name, [], p⟩), .expr (.call name [])] := by
  have hcall : (Expr.call name []).Written := .call hn (by simp)
  exact .function hn (by simp) h (.unit (.expr (parseExpr_flat hcall)) .nil)

/-- The scope in which the function is called. -/
def Scope.singleton (name : String) (v : Value) : Scope :=
  ⟨[(name, v)], by simp⟩

theorem Scope.declare_empty (name : String) (v : Value) :
    Scope.empty.declare name v = .ok (.singleton name v) :=
  rfl

theorem Scope.get?_singleton (name : String) (v : Value) :
    (Scope.singleton name v).get? name = some v := by
  simp [Scope.singleton, Scope.get?]

/-- A call without arguments of what a name is bound to. -/
theorem on_callWith_nil (host : Host) (call : Caller) {s : Scope} {name : String}
    {d : Definition} (h : s.get? name = some (.function d)) (sink : Sink) :
    (callWith host call name (evalAll host call [])).on ⟨s, sink⟩ =
      (call d [] sink).map fun (r, sink') => (r, ⟨s, sink'⟩) := by
  have hr : host.resolve s name = .ok (.function d) := by
    rw [Host.resolve, h]
  rw [callWith, Eval.on_bind, Eval.on_lookup, hr, evalAll]
  rfl

/-- The body starts in an empty scope, as the program does. -/
theorem callBody_nil (host : Host) (call : Caller) (name : String) (p : Program) (sink : Sink) :
    callBody host call ⟨name, [], p⟩ [] sink =
      ((evalNodes host call none p).on ⟨.empty, sink⟩).map fun (ending, m) =>
        (ending.map Completion.answer, m.sink) :=
  rfl

/-- The function is bound and then called, and the call runs the program in a scope of its own. -/
theorem on_evalNodes_wrapped (host : Host) (depth : Nat) (name : String) (p : Program)
    (sink : Sink) :
    (evalNodes host (callWithin host (depth + 1)) none
        [.expr (.function ⟨name, [], p⟩), .expr (.call name [])]).on ⟨.empty, sink⟩ =
      ((evalNodes host (callWithin host depth) none p).on ⟨.empty, sink⟩).map fun (ending, m) =>
        (ending.map (.finished ·.answer),
          ⟨.singleton name (.function ⟨name, [], p⟩), m.sink⟩) := by
  have hcall := on_callWith_nil host (callWithin host (depth + 1))
    (Scope.get?_singleton name (.function ⟨name, [], p⟩)) sink
  rw [callWithin, callBody_nil] at hcall
  simp only [evalNodes, evalNode, Eval.on_bind, Eval.on_declare, Scope.declare_empty,
    Eval.on_pure, callWithin, hcall]
  cases (evalNodes host (callWithin host depth) none p).on ⟨.empty, sink⟩ with
  | none => rfl
  | some outcome =>
    obtain ⟨ending, m⟩ := outcome
    cases ending <;> rfl

/-- The nodes of the program come to an end on the machine `m`, in this way and with this
machine. -/
def Completes (host : Host) (p : Program) (m : Machine) (ending : Except EvalError Completion)
    (m' : Machine) : Prop :=
  ∃ depth, (evalNodes host (callWithin host depth) none p).on m = some (ending, m')

theorem Completes.unique {host : Host} {p : Program} {m m₁ m₂ : Machine}
    {ending ending' : Except EvalError Completion} (h : Completes host p m ending m₁)
    (h' : Completes host p m ending' m₂) : ending = ending' ∧ m₁ = m₂ := by
  obtain ⟨depth, hr⟩ := h
  obtain ⟨depth', hr'⟩ := h'
  have hm := evalNodes_below (callWithin_below host (Nat.le_max_left depth depth')) none p _ _ hr
  have hm' := evalNodes_below (callWithin_below host (Nat.le_max_right depth depth')) none p _ _ hr'
  rw [hm] at hm'
  cases hm'
  exact ⟨rfl, rfl⟩

theorem runsTo_iff {host : Host} {source : String} {p : Program}
    (h : readProgram source = .ok p) {m m' : Machine} {r : Except Error (Option Value)} :
    RunsTo host source m (r, m') ↔
      ∃ ending, Completes host p m ending m' ∧ r = outcomeOfEnding ending := by
  constructor
  · rintro ⟨depth, hr⟩
    rw [run_of_readProgram h] at hr
    obtain ⟨ending, hn, rfl⟩ := execute_eq_some hr
    exact ⟨ending, ⟨depth, hn⟩, rfl⟩
  · rintro ⟨ending, ⟨depth, hn⟩, rfl⟩
    refine ⟨depth, ?_⟩
    rw [run_of_readProgram h, execute, on_evalProgram, hn]
    rfl

theorem completes_wrapped_iff {host : Host} {name : String} {p : Program} {sink : Sink}
    {ending' : Except EvalError Completion} {m' : Machine} :
    Completes host [.expr (.function ⟨name, [], p⟩), .expr (.call name [])] ⟨.empty, sink⟩
        ending' m' ↔
      ∃ ending m, Completes host p ⟨.empty, sink⟩ ending m ∧
        ending' = ending.map (.finished ·.answer) ∧
        m' = ⟨.singleton name (.function ⟨name, [], p⟩), m.sink⟩ := by
  constructor
  · rintro ⟨depth, h⟩
    -- the call alone takes one step of depth
    have hs := evalNodes_below (callWithin_below_succ host depth) none _ _ _ h
    rw [on_evalNodes_wrapped] at hs
    obtain ⟨⟨ending, m⟩, hn, he⟩ := Option.map_eq_some_iff.mp hs
    cases he
    exact ⟨ending, m, ⟨depth, hn⟩, rfl, rfl⟩
  · rintro ⟨ending, m, ⟨depth, hn⟩, rfl, rfl⟩
    refine ⟨depth + 1, ?_⟩
    rw [on_evalNodes_wrapped, hn]
    rfl

/-- The results of a program and of a call of it, by how the nodes of the program end. -/
inductive ResultsOf : Except EvalError Completion → Except Error (Option Value) →
    Except Error (Option Value) → Prop where
  | failed (e : EvalError) : ResultsOf (.error e) (.error (.eval e)) (.error (.eval e))
  | returned (v : Value) : ResultsOf (.ok (.returned v)) (.ok (some v)) (.ok (some v))
  | finished (last : Option Value) : ResultsOf (.ok (.finished last)) (.ok last) (.ok none)

theorem resultsOf_outcome (ending : Except EvalError Completion) :
    ResultsOf ending (outcomeOfEnding ending)
      (outcomeOfEnding (ending.map (.finished ·.answer))) := by
  rcases ending with e | (last | v)
  · exact .failed e
  · exact .finished last
  · exact .returned v

/-- A source that can be read can be made the body of a function, under any name, and what is then
read is the function and its call. A run of that ends if and only if the run of the source does.
Both write the same and fail with the same error; a return gives the same value, and without one
the call gives none. Of the scope only the function is left. -/
theorem run_wrapped (host : Host) {source : String} {ts : List Token} {p : Program}
    (ht : tokenize source = .ok ts) (hp : parse ts = .ok p) {name : String}
    (hw : Token.IsWord ⟨name⟩) (hn : Token.isName ⟨name⟩ = true) (sink : Sink) :
    readProgram (wrapped name source) =
      .ok [.expr (.function ⟨name, [], p⟩), .expr (.call name [])] ∧
    ((∃ o, RunsTo host source ⟨.empty, sink⟩ o) ↔
      ∃ o, RunsTo host (wrapped name source) ⟨.empty, sink⟩ o) ∧
    ∀ r m r' m', RunsTo host source ⟨.empty, sink⟩ (r, m) →
      RunsTo host (wrapped name source) ⟨.empty, sink⟩ (r', m') →
      m'.sink = m.sink ∧ m'.scope = .singleton name (.function ⟨name, [], p⟩) ∧
        ∃ ending, Completes host p ⟨.empty, sink⟩ ending m ∧ ResultsOf ending r r' := by
  have hs := readProgram_eq_ok ht hp
  have hd := derives_wrapped hn (derives_of_parse hp)
  have hwrapped := readProgram_eq_ok (tokenize_wrapped hw ht) hd.parse
  refine ⟨hwrapped, ⟨?_, ?_⟩, ?_⟩
  · rintro ⟨⟨r, m⟩, h⟩
    obtain ⟨ending, hc, _⟩ := (runsTo_iff hs).mp h
    exact ⟨_, (runsTo_iff hwrapped).mpr
      ⟨_, completes_wrapped_iff.mpr ⟨ending, m, hc, rfl, rfl⟩, rfl⟩⟩
  · rintro ⟨⟨r', m'⟩, h⟩
    obtain ⟨_, hc, _⟩ := (runsTo_iff hwrapped).mp h
    obtain ⟨ending, m, hc, _, _⟩ := completes_wrapped_iff.mp hc
    exact ⟨_, (runsTo_iff hs).mpr ⟨ending, hc, rfl⟩⟩
  · intro r m r' m' h h'
    obtain ⟨ending, hc, rfl⟩ := (runsTo_iff hs).mp h
    obtain ⟨_, hc', rfl⟩ := (runsTo_iff hwrapped).mp h'
    obtain ⟨ending₁, m₁, hc₁, rfl, rfl⟩ := completes_wrapped_iff.mp hc'
    obtain ⟨rfl, rfl⟩ := hc.unique hc₁
    exact ⟨rfl, rfl, ending, hc, resultsOf_outcome ending⟩

/-- The body binds the name of the function to something else, and its last unit is left open. -/
theorem run_wrapped_same_name :
    ∃ m m', RunsTo .standard "let m = 2; return m" ⟨.empty, .unlimited⟩
        (.ok (some (.number 2)), m) ∧
      RunsTo .standard "func m() \x7blet m = 2; return m\x7d m();" ⟨.empty, .unlimited⟩
        (.ok (some (.number 2)), m') ∧
      m'.scope = .singleton "m" (.function ⟨"m", [],
        [.declare .mutable "m" (.number "2"), .ret (.variable "m")]⟩) := by
  have ht : tokenize "let m = 2; return m" =
      .ok [⟨"let"⟩, ⟨"m"⟩, ⟨"="⟩, ⟨"2"⟩, ⟨";"⟩, ⟨"return"⟩, ⟨"m"⟩] :=
    tokenize_eq_ok_iff.mpr ⟨rfl, rfl, rfl, rfl, rfl, rfl, rfl, rfl⟩
  have hd : Derives _ [.declare .mutable "m" (.number "2"), .ret (.variable "m")] :=
    .unit (.declare .mutable rfl (parseExpr_flat (.number rfl)))
      (.last (.ret (parseExpr_flat (.name rfl))))
  have hw : Token.IsWord ⟨"m"⟩ := by
    refine ⟨by simp, ?_⟩
    intro c hc
    cases List.mem_singleton.mp hc
    rfl
  have h := run_wrapped .standard ht hd.parse hw rfl .unlimited
  have hr : RunsTo .standard _ ⟨.empty, .unlimited⟩ (.ok (some (.number 2)), _) :=
    ⟨0, run_of_readProgram (readProgram_eq_ok ht hd.parse) _⟩
  have hr' : RunsTo .standard _ ⟨.empty, .unlimited⟩ (.ok (some (.number 2)), _) :=
    ⟨1, run_of_readProgram h.1 _⟩
  exact ⟨_, _, hr, hr', (h.2.2 _ _ _ _ hr hr').2.1⟩

end TinyScript
