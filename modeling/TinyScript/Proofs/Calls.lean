import TinyScript.Eval.Call

/-!
What a call does, in the order in which it does it. The callee is looked up before the arguments,
which are evaluated from left to right where the call stands. From then on the scope of the caller
is out of reach: a function runs in a scope that holds its parameters and nothing else.
-/

namespace TinyScript

/-- Arguments are evaluated one after the other, each on the machine that the one before it left. -/
inductive Arguments (host : Host) (call : Caller) :
    Machine → List Expr → List Value → Machine → Prop where
  | nil (m : Machine) : Arguments host call m [] [] m
  | cons {m mid last : Machine} {e : Expr} {es : List Expr} {v : Value} {vs : List Value}
      (he : (evalExpr host call e).on m = some (.ok v, mid))
      (hs : Arguments host call mid es vs last) : Arguments host call m (e :: es) (v :: vs) last

/-- What it comes to if `callee`, which went by the name `name`, is given its arguments: a result,
and what has become of the sink. Calls inside of it may nest `depth` deep. -/
inductive Invokes (host : Host) (depth : Nat) (name : String) :
    Value → List Value → Sink → Except EvalError (Option Value) → Sink → Prop where
  | wrongArity {d : Definition} {vs : List Value} {sink : Sink}
      (h : vs.length ≠ d.parameters.length) :
      Invokes host depth name (.function d) vs sink
        (.error (.wrongArity d.name vs.length d.parameters.length)) sink
  /-- `p` is the first parameter that equals an earlier one. -/
  | repeated {d : Definition} {vs : List Value} {sink : Sink} {before after : List String}
      {p : String} (hl : vs.length = d.parameters.length)
      (hp : d.parameters = before ++ p :: after) (hn : before.Nodup) (hm : p ∈ before) :
      Invokes host depth name (.function d) vs sink (.error (.alreadyBound p)) sink
  | body {d : Definition} {vs : List Value} {sink : Sink} {s : Scope}
      {ending : Except EvalError Completion} {last : Machine}
      (hl : vs.length = d.parameters.length) (hn : d.parameters.Nodup)
      (hs : s.bindings = (d.parameters.zip vs).reverse)
      (hb : (evalNodes host (callWithin host depth) none d.body).on ⟨s, sink⟩ =
        some (ending, last)) :
      Invokes host depth name (.function d) vs sink (ending.map Completion.answer) last.sink
  | builtin {b : String} {f : HostFunction} {vs : List Value} {sink sink' : Sink}
      {r : Except EvalError (Option Value)} (hf : host.function? b = some f)
      (hr : f vs sink = (r, sink')) : Invokes host depth name (.builtin b) vs sink r sink'
  | notCallable {callee : Value} {vs : List Value} {sink : Sink}
      (hd : ∀ d, callee ≠ .function d) (hb : ∀ b, callee = .builtin b → host.function? b = none) :
      Invokes host depth name callee vs sink (.error (.notCallable name callee.type)) sink

/-- What a call of `name` with the arguments `es` comes to, if it stands in the scope of `m`. -/
inductive Calls (host : Host) (depth : Nat) (name : String) (es : List Expr) (m : Machine) :
    Except EvalError (Option Value) × Machine → Prop where
  /-- No argument is evaluated. -/
  | unbound (hs : m.scope.get? name = none) (hn : name ∉ host.names) :
      Calls host depth name es m (.error (.unbound name), m)
  /-- The arguments behind the first one that fails are not evaluated. -/
  | argument {callee : Value} {before after : List Expr} {e : Expr} {vs : List Value}
      {mid last : Machine} {err : EvalError} (hf : host.resolve m.scope name = .ok callee)
      (hes : es = before ++ e :: after)
      (hb : Arguments host (callWithin host (depth + 1)) m before vs mid)
      (he : (evalExpr host (callWithin host (depth + 1)) e).on mid = some (.error err, last)) :
      Calls host depth name es m (.error err, last)
  /-- The callee is what the name stood for before the arguments, and the scope stays as they have
  left it. -/
  | invoked {callee : Value} {vs : List Value} {mid : Machine}
      {r : Except EvalError (Option Value)} {sink : Sink}
      (hf : host.resolve m.scope name = .ok callee)
      (ha : Arguments host (callWithin host (depth + 1)) m es vs mid)
      (hi : Invokes host depth name callee vs mid.sink r sink) :
      Calls host depth name es m (r, { mid with sink })

section Evaluation

variable {host : Host} {call : Caller}

theorem Arguments.on_evalAll {m last : Machine} {es : List Expr} {vs : List Value}
    (h : Arguments host call m es vs last) : (evalAll host call es).on m = some (.ok vs, last) := by
  induction h with
  | nil m =>
    rw [evalAll]
    rfl
  | cons he hs ih =>
    rw [evalAll, Eval.on_bind, he]
    simp only [Eval.on_bind, ih]
    rfl

/-- Where an argument fails, it does not matter what would follow. -/
theorem Arguments.on_evalAll_append {m mid last : Machine} {before : List Expr} {vs : List Value}
    (h : Arguments host call m before vs mid) {e : Expr} {err : EvalError}
    (he : (evalExpr host call e).on mid = some (.error err, last)) (after : List Expr) :
    (evalAll host call (before ++ e :: after)).on m = some (.error err, last) := by
  induction h with
  | nil m =>
    rw [List.nil_append, evalAll, Eval.on_bind, he]
  | cons hv hs ih =>
    rw [List.cons_append, evalAll, Eval.on_bind, hv]
    simp only [Eval.on_bind, ih he]

theorem arguments_of_on_evalAll {m last : Machine} {es : List Expr} {vs : List Value}
    (h : (evalAll host call es).on m = some (.ok vs, last)) : Arguments host call m es vs last := by
  induction es generalizing m vs with
  | nil =>
    rw [evalAll] at h
    cases h
    exact .nil last
  | cons e es ih =>
    rw [evalAll] at h
    rcases Eval.on_bind_eq_some_iff.mp h with ⟨_, _, _, hr⟩ | ⟨v, mid, he, h⟩
    · cases hr
    · rcases Eval.on_bind_eq_some_iff.mp h with ⟨_, _, _, hr⟩ | ⟨_, _, hs, h⟩
      · cases hr
      · cases h
        exact .cons he (ih hs)

/-- If the arguments fail, it is one of them that does, and those before it have a value. -/
theorem exists_argument_of_on_evalAll {m last : Machine} {es : List Expr} {err : EvalError}
    (h : (evalAll host call es).on m = some (.error err, last)) :
    ∃ before e after vs mid, es = before ++ e :: after ∧ Arguments host call m before vs mid ∧
      (evalExpr host call e).on mid = some (.error err, last) := by
  induction es generalizing m with
  | nil =>
    rw [evalAll] at h
    cases h
  | cons e es ih =>
    rw [evalAll] at h
    rcases Eval.on_bind_eq_some_iff.mp h with ⟨_, _, he, hr⟩ | ⟨v, mid, he, h⟩
    · cases hr
      exact ⟨[], e, es, [], m, rfl, .nil m, he⟩
    · rcases Eval.on_bind_eq_some_iff.mp h with ⟨_, _, hs, hr⟩ | ⟨_, _, _, h⟩
      · cases hr
        obtain ⟨before, failing, after, vs, mid', hes, hb, hf⟩ := ih hs
        refine ⟨e :: before, failing, after, v :: vs, mid', ?_, .cons he hb, hf⟩
        rw [hes, List.cons_append]
      · cases h

end Evaluation

section Frames

/-- Names that are not all different have a first one that equals an earlier one. -/
theorem exists_first_repeated (seen names : List String) (hs : seen.Nodup)
    (h : ¬ (seen ++ names).Nodup) :
    ∃ before p after, seen ++ names = before ++ p :: after ∧ before.Nodup ∧ p ∈ before := by
  induction names generalizing seen with
  | nil =>
    rw [List.append_nil] at h
    exact absurd hs h
  | cons name names ih =>
    by_cases hm : name ∈ seen
    · exact ⟨seen, name, names, rfl, hs, hm⟩
    · have hn : (seen ++ [name]).Nodup := by
        apply List.nodup_append.mpr
        refine ⟨hs, by simp, ?_⟩
        intro a ha b hb hab
        rw [List.mem_singleton.mp hb] at hab
        exact hm (hab ▸ ha)
      have hassoc : seen ++ name :: names = seen ++ [name] ++ names := by simp
      rw [hassoc] at h ⊢
      exact ih (seen ++ [name]) hn h

namespace Scope

theorem declareAll_append (s : Scope) (first second : List (String × Value)) :
    s.declareAll (first ++ second) = (s.declareAll first).bind (·.declareAll second) := by
  induction first generalizing s with
  | nil => rfl
  | cons b first ih =>
    obtain ⟨name, v⟩ := b
    rw [List.cons_append, declareAll, declareAll]
    cases s.declare name v with
    | error e => rfl
    | ok t => exact ih t

/-- Different names can all be bound. -/
theorem declareAll_of_nodup {bindings : List (String × Value)}
    (h : (bindings.map Prod.fst).Nodup) :
    ∃ s, empty.declareAll bindings = .ok s ∧ s.bindings = bindings.reverse := by
  cases hd : empty.declareAll bindings with
  | error e => exact absurd h (declareAll_eq_error hd).2
  | ok s =>
    refine ⟨s, rfl, ?_⟩
    rw [bindings_of_declareAll hd]
    exact List.append_nil _

theorem frame_of_length {d : Definition} {vs : List Value}
    (hl : vs.length = d.parameters.length) :
    frame d vs = empty.declareAll (d.parameters.zip vs) :=
  if_pos hl

theorem frame_of_nodup {d : Definition} {vs : List Value} (hl : vs.length = d.parameters.length)
    (hn : d.parameters.Nodup) :
    ∃ s, frame d vs = .ok s ∧ s.bindings = (d.parameters.zip vs).reverse := by
  have hnames : ((d.parameters.zip vs).map Prod.fst).Nodup := by
    rw [List.map_fst_zip (Nat.le_of_eq hl.symm)]
    exact hn
  rw [frame_of_length hl]
  exact declareAll_of_nodup hnames

/-- Parameters are bound in order, so the first that equals an earlier one is the one that fails. -/
theorem frame_of_repeated {d : Definition} {vs : List Value} {before after : List String}
    {p : String} (hl : vs.length = d.parameters.length) (hp : d.parameters = before ++ p :: after)
    (hn : before.Nodup) (hm : p ∈ before) : frame d vs = .error (.alreadyBound p) := by
  rw [frame_of_length hl, hp]
  rw [hp, List.length_append, List.length_cons] at hl
  obtain ⟨v, rest, hv⟩ : ∃ v rest, vs.drop before.length = v :: rest := by
    apply List.exists_cons_of_ne_nil
    intro he
    rw [List.drop_eq_nil_iff] at he
    omega
  have hlen : before.length = (vs.take before.length).length := by
    rw [List.length_take]
    omega
  have hnames : (before.zip (vs.take before.length)).map Prod.fst = before :=
    List.map_fst_zip (Nat.le_of_eq hlen)
  obtain ⟨s, hs, hb⟩ := declareAll_of_nodup (hnames.symm ▸ hn)
  have hc : s.contains p = true := by
    rw [← mem_keys_iff, hb, List.map_reverse, List.mem_reverse, hnames]
    exact hm
  rw [← List.take_append_drop before.length vs, hv, List.zip_append hlen, List.zip_cons_cons,
    declareAll_append, hs]
  change s.declareAll ((p, v) :: after.zip rest) = _
  rw [declareAll, declare_of_contains hc]
  rfl

end Scope

end Frames

section Invocation

variable {host : Host} {depth : Nat} {name : String}

theorem callBody_of_frame_error {call : Caller} {d : Definition} {vs : List Value} {e : EvalError}
    (h : Scope.frame d vs = .error e) (sink : Sink) :
    callBody host call d vs sink = some (.error e, sink) := by
  rw [callBody, h]

theorem callBody_of_frame_ok {call : Caller} {d : Definition} {vs : List Value} {s : Scope}
    (h : Scope.frame d vs = .ok s) (sink : Sink) :
    callBody host call d vs sink =
      ((evalNodes host call none d.body).on ⟨s, sink⟩).map fun (ending, m) =>
        (ending.map Completion.answer, m.sink) := by
  rw [callBody, h]

theorem Scope.frame_of_length_ne {d : Definition} {vs : List Value}
    (h : vs.length ≠ d.parameters.length) :
    Scope.frame d vs = .error (.wrongArity d.name vs.length d.parameters.length) :=
  if_neg h

theorem invokes_of_callWithin {d : Definition} {vs : List Value} {sink sink' : Sink}
    {r : Except EvalError (Option Value)}
    (h : callWithin host (depth + 1) d vs sink = some (r, sink')) :
    Invokes host depth name (.function d) vs sink r sink' := by
  rw [callWithin] at h
  by_cases hl : vs.length = d.parameters.length
  · by_cases hn : d.parameters.Nodup
    · obtain ⟨s, hs, hb⟩ := Scope.frame_of_nodup hl hn
      rw [callBody_of_frame_ok hs] at h
      obtain ⟨outcome, ho, hr⟩ := Option.map_eq_some_iff.mp h
      cases hr
      exact .body hl hn hb ho
    · obtain ⟨before, p, after, hp, hb, hm⟩ :=
        exists_first_repeated [] d.parameters List.nodup_nil hn
      rw [callBody_of_frame_error (Scope.frame_of_repeated hl hp hb hm)] at h
      cases h
      exact .repeated hl hp hb hm
  · rw [callBody_of_frame_error (Scope.frame_of_length_ne hl)] at h
    cases h
    exact .wrongArity hl

theorem callWithin_of_invokes {d : Definition} {vs : List Value} {sink sink' : Sink}
    {r : Except EvalError (Option Value)}
    (h : Invokes host depth name (.function d) vs sink r sink') :
    callWithin host (depth + 1) d vs sink = some (r, sink') := by
  rw [callWithin]
  cases h with
  | wrongArity hl => exact callBody_of_frame_error (Scope.frame_of_length_ne hl) sink
  | repeated hl hp hn hm => exact callBody_of_frame_error (Scope.frame_of_repeated hl hp hn hm) sink
  | @body _ _ _ s ending last hl hn hs hb =>
    obtain ⟨s', hf, hs'⟩ := Scope.frame_of_nodup hl hn
    have hsame : s' = s := Scope.ext (hs'.trans hs.symm)
    rw [callBody_of_frame_ok hf, hsame, hb]
    rfl
  | notCallable hd => exact absurd rfl (hd d)

theorem on_throw_eq_some_iff_invokes {callee : Value} {vs : List Value} {mid last : Machine}
    {r : Except EvalError (Option Value)} (hd : ∀ d, callee ≠ .function d)
    (hb : ∀ b, callee = .builtin b → host.function? b = none) :
    (throw (.notCallable name callee.type) : Eval (Option Value)).on mid = some (r, last) ↔
      ∃ sink, Invokes host depth name callee vs mid.sink r sink ∧ last = { mid with sink } := by
  constructor
  · intro h
    cases h
    exact ⟨mid.sink, .notCallable hd hb, rfl⟩
  · intro h
    obtain ⟨sink, hi, rfl⟩ := h
    cases hi with
    | wrongArity => exact absurd rfl (hd _)
    | repeated => exact absurd rfl (hd _)
    | body => exact absurd rfl (hd _)
    | builtin hf =>
      rw [hb _ rfl] at hf
      cases hf
    | notCallable => rfl

theorem on_invoke_eq_some_iff {callee : Value} {vs : List Value} {mid last : Machine}
    {r : Except EvalError (Option Value)} :
    (Eval.invoke host (callWithin host (depth + 1)) name callee vs).on mid = some (r, last) ↔
      ∃ sink, Invokes host depth name callee vs mid.sink r sink ∧ last = { mid with sink } := by
  cases callee with
  | number n => exact on_throw_eq_some_iff_invokes (fun _ h => nomatch h) (fun _ h => nomatch h)
  | text content => exact on_throw_eq_some_iff_invokes (fun _ h => nomatch h) (fun _ h => nomatch h)
  | function d =>
    rw [Eval.invoke, Eval.on_onSink, Option.map_eq_some_iff]
    constructor
    · intro h
      obtain ⟨outcome, ho, hr⟩ := h
      cases hr
      exact ⟨outcome.2, invokes_of_callWithin ho, rfl⟩
    · intro h
      obtain ⟨sink, hi, rfl⟩ := h
      exact ⟨(r, sink), callWithin_of_invokes hi, rfl⟩
  | builtin b =>
    cases hf : host.function? b with
    | none =>
      have hb : ∀ c, Value.builtin b = .builtin c → host.function? c = none := by
        intro c hc
        cases hc
        exact hf
      have hd : ∀ d, Value.builtin b ≠ .function d := fun _ h => nomatch h
      simp only [Eval.invoke, hf]
      exact on_throw_eq_some_iff_invokes hd hb
    | some f =>
      simp only [Eval.invoke, hf, Eval.on_onSink, Option.map_some]
      constructor
      · intro h
        cases h
        exact ⟨_, .builtin hf rfl, rfl⟩
      · intro h
        obtain ⟨sink, hi, rfl⟩ := h
        cases hi with
        | builtin hf' hr =>
          rw [hf] at hf'
          cases hf'
          rw [hr]
        | notCallable hd hb =>
          rw [hb b rfl] at hf
          cases hf

end Invocation

theorem Host.resolve_eq_error_iff {host : Host} {s : Scope} {name : String} {e : EvalError} :
    host.resolve s name = .error e ↔
      (s.get? name = none ∧ name ∉ host.names) ∧ e = .unbound name := by
  unfold Host.resolve
  cases s.get? name with
  | some v => simp
  | none => by_cases hn : name ∈ host.names <;> simp [hn, eq_comm]

theorem on_callWith_eq_some_iff {host : Host} {depth : Nat} {name : String} {es : List Expr}
    {m : Machine} {r : Except EvalError (Option Value) × Machine} :
    (callWith host (callWithin host (depth + 1)) name
        (evalAll host (callWithin host (depth + 1)) es)).on m = some r ↔
      Calls host depth name es m r := by
  rw [callWith, Eval.on_bind, Eval.on_lookup]
  constructor
  · intro h
    cases hf : host.resolve m.scope name with
    | error e =>
      obtain ⟨⟨hs, hn⟩, rfl⟩ := Host.resolve_eq_error_iff.mp hf
      rw [hf] at h
      cases h
      exact .unbound hs hn
    | ok callee =>
      rw [hf] at h
      rcases Eval.on_bind_eq_some_iff.mp h with ⟨err, last, ha, rfl⟩ | ⟨vs, mid, ha, hi⟩
      · obtain ⟨before, e, after, vs, mid, hes, hb, he⟩ := exists_argument_of_on_evalAll ha
        exact .argument hf hes hb he
      · obtain ⟨result, last⟩ := r
        obtain ⟨sink, hinv, rfl⟩ := on_invoke_eq_some_iff.mp hi
        exact .invoked hf (arguments_of_on_evalAll ha) hinv
  · intro h
    cases h with
    | unbound hs hn => rw [Host.resolve_eq_error_iff.mpr ⟨⟨hs, hn⟩, rfl⟩]
    | @argument callee before after e vs mid last err hf hes hb he =>
      rw [hf, hes]
      exact Eval.on_bind_eq_some_iff.mpr (.inl ⟨err, last, hb.on_evalAll_append he after, rfl⟩)
    | invoked hf ha hi =>
      rw [hf]
      exact Eval.on_bind_eq_some_iff.mpr
        (.inr ⟨_, _, ha.on_evalAll, on_invoke_eq_some_iff.mpr ⟨_, hi, rfl⟩⟩)

/-- A second part that leaves the machine alone only changes the result. -/
theorem Eval.on_bind_eq_some_iff_of_still {α β : Type} {x : Eval α} {f : α → Eval β}
    {g : α → Except EvalError β} (hf : ∀ a m, (f a).on m = some (g a, m)) {m last : Machine}
    {r : Except EvalError β} :
    (x >>= f).on m = some (r, last) ↔ ∃ result, x.on m = some (result, last) ∧ r = result.bind g := by
  rw [Eval.on_bind_eq_some_iff]
  constructor
  · intro h
    rcases h with ⟨e, mid, hx, hr⟩ | ⟨a, mid, hx, hr⟩
    · cases hr
      exact ⟨.error e, hx, rfl⟩
    · rw [hf] at hr
      cases hr
      exact ⟨.ok a, hx, rfl⟩
  · intro h
    obtain ⟨result, hx, rfl⟩ := h
    cases result with
    | error e => exact .inl ⟨e, last, hx, rfl⟩
    | ok a => exact .inr ⟨a, last, hx, hf a last⟩

/-- What a call does, for any arguments, any builtins, in any scope and with any sink: it comes to
what `Calls` says, and to nothing else. A call that stands alone passes that on. One inside an
expression has to give a value. -/
theorem call_iff_calls (host : Host) (depth : Nat) (name : String) (es : List Expr) (m : Machine) :
    (∀ r last, (evalNode host (callWithin host (depth + 1)) (.expr (.call name es))).on m =
        some (r, last) ↔
      ∃ result, Calls host depth name es m (result, last) ∧ r = result.map .finished) ∧
    ∀ r last, (evalExpr host (callWithin host (depth + 1)) (.call name es)).on m =
        some (r, last) ↔
      ∃ result, Calls host depth name es m (result, last) ∧
        r = result.bind fun given => given.elim (.error (.noValue name)) .ok := by
  simp only [← on_callWith_eq_some_iff]
  constructor
  · intro r last
    rw [evalNode]
    exact Eval.on_bind_eq_some_iff_of_still fun given => Eval.on_pure (Completion.finished given)
  · intro r last
    rw [evalExpr]
    apply Eval.on_bind_eq_some_iff_of_still
    intro given _
    cases given <;> rfl

/-- A function of the callee's own name among the arguments is bound, and the builtin is called. -/
example :
    ((evalNode .standard (callWithin .standard 1)
        (.expr (.call "println" [.function ⟨"println", [], []⟩]))).on ⟨.empty, .unlimited⟩).map
          (fun (r, m) => (r, m.scope.get? "println", m.sink.written)) =
      some (.ok (.finished none), some (.function ⟨"println", [], []⟩),
        "func println()\n".toUTF8) := by
  rfl

end TinyScript
