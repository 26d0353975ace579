import TinyScript.Proofs.Depth

/-!
Nodes behind a return. A sequence ends at its first return, so what stands behind it can be cut
off, in a program and in every body inside it. Function values carry their bodies along, so the
cut program does not give the same values but the same values cut, in the same scopes cut.
-/

namespace TinyScript

mutual

def Expr.cut : Expr → Expr
  | .number raw => .number raw
  | .text content => .text content
  | .variable name => .variable name
  | .binary op l r => .binary op l.cut r.cut
  | .call callee arguments => .call callee (Expr.cutAll arguments)
  | .function d => .function d.cut

def Expr.cutAll : List Expr → List Expr
  | [] => []
  | e :: es => e.cut :: Expr.cutAll es

def Definition.cut : Definition → Definition
  | ⟨name, parameters, body⟩ => ⟨name, parameters, Node.cutAll body⟩

def Node.cut : Node → Node
  | .declare form name e => .declare form name e.cut
  | .ret e => .ret e.cut
  | .expr e => .expr e.cut

/-- The nodes up to the first return, with all that is inside them cut too. -/
def Node.cutAll : List Node → List Node
  | [] => []
  | .ret e :: _ => [.ret e.cut]
  | n :: ns => n.cut :: Node.cutAll ns

end

@[simp]
theorem Definition.cut_name (d : Definition) : d.cut.name = d.name := by
  cases d
  rfl

@[simp]
theorem Definition.cut_parameters (d : Definition) : d.cut.parameters = d.parameters := by
  cases d
  rfl

@[simp]
theorem Definition.cut_body (d : Definition) : d.cut.body = Node.cutAll d.body := by
  cases d
  rfl

@[simp]
theorem Definition.cut_arity (d : Definition) : d.cut.arity = d.arity := by
  rw [Definition.arity, Definition.cut_parameters, Definition.arity]

def Value.cut : Value → Value
  | .number n => .number n
  | .text content => .text content
  | .function d => .function d.cut
  | .builtin name => .builtin name

namespace Value

@[simp]
theorem type_cut (v : Value) : v.cut.type = v.type := by
  cases v <;> rfl

@[simp]
theorem isWritten_cut (v : Value) : v.cut.isWritten = v.isWritten := by
  cases v <;> rfl

/-- What is shown of a function stands before its body. -/
@[simp]
theorem display_cut (v : Value) : v.cut.display = v.display := by
  cases v with
  | function d => simp [Value.cut, Value.display, Definition.signature]
  | number n => rfl
  | text content => rfl
  | builtin name => rfl

end Value

theorem Operator.onValues_cut (op : Operator) (a b : Value) :
    op.onValues a.cut b.cut = (op.onValues a b).map Value.cut := by
  cases a with
  | number m =>
    cases b with
    | number n =>
      simp only [Value.cut, Operator.onValues]
      cases op.onNumbers m n <;> rfl
    | text _ | function _ | builtin _ => cases op <;> rfl
  | text _ | function _ | builtin _ => cases b <;> cases op <;> rfl

namespace Scope

def cut (s : Scope) : Scope where
  bindings := s.bindings.map fun (name, v) => (name, v.cut)
  nodup := by
    rw [List.map_map]
    exact s.nodup

@[simp]
theorem get?_cut (s : Scope) (name : String) : s.cut.get? name = (s.get? name).map Value.cut := by
  obtain ⟨bindings, nodup⟩ := s
  unfold cut get?
  dsimp only
  clear nodup
  induction bindings with
  | nil => rfl
  | cons b bs ih =>
    obtain ⟨key, v⟩ := b
    rw [List.map_cons, List.lookup_cons, List.lookup_cons, ih]
    cases name == key <;> rfl

@[simp]
theorem contains_cut (s : Scope) (name : String) : s.cut.contains name = s.contains name := by
  simp [contains]

theorem declare_cut (s : Scope) (name : String) (v : Value) :
    s.cut.declare name v.cut = (s.declare name v).map cut := by
  cases hc : s.contains name with
  | true =>
    rw [declare_of_contains hc, declare_of_contains (by simpa using hc)]
    rfl
  | false =>
    obtain ⟨t, ht, hb⟩ := declare_of_not_contains hc v
    obtain ⟨t', ht', hb'⟩ := declare_of_not_contains (s := s.cut) (by simpa using hc) v.cut
    have he : t' = t.cut := Scope.ext (by simp [hb', cut, hb])
    rw [ht, ht', he]
    rfl

theorem declareAll_cut (s : Scope) (bindings : List (String × Value)) :
    s.cut.declareAll (bindings.map fun (name, v) => (name, v.cut)) =
      (s.declareAll bindings).map cut := by
  induction bindings generalizing s with
  | nil => rfl
  | cons b rest ih =>
    obtain ⟨name, v⟩ := b
    simp only [List.map_cons, declareAll, declare_cut]
    cases s.declare name v with
    | error e => rfl
    | ok t => exact ih t

theorem frame_cut (d : Definition) (arguments : List Value) :
    frame d.cut (arguments.map Value.cut) = (frame d arguments).map cut := by
  unfold frame
  rw [List.length_map, Definition.cut_arity, Definition.cut_parameters, Definition.cut_name]
  split
  · have hz : d.parameters.zip (arguments.map Value.cut) =
        (d.parameters.zip arguments).map fun (name, v) => (name, v.cut) :=
      List.zip_map_right
    rw [hz]
    exact declareAll_cut empty _
  · rfl

end Scope

theorem Host.resolve_cut (host : Host) (s : Scope) (name : String) :
    host.resolve s.cut name = (host.resolve s name).map Value.cut := by
  rw [Host.resolve, Host.resolve, Scope.get?_cut]
  cases s.get? name with
  | some v => rfl
  | none =>
    dsimp only [Option.map_none]
    split <;> rfl

def Machine.cut (m : Machine) : Machine :=
  ⟨m.scope.cut, m.sink⟩

/-- An outcome, its value changed by `f` and its machine cut. -/
def cutOutcome {α β : Type} (f : α → β) (o : Except EvalError α × Machine) :
    Except EvalError β × Machine :=
  (o.1.map f, o.2.cut)

/-- On a cut machine, `y` does what `x` does, up to `f` and a cut. -/
def Eval.CutsTo {α β : Type} (f : α → β) (x : Eval α) (y : Eval β) : Prop :=
  ∀ m : Machine, y.on m.cut = (x.on m).map (cutOutcome f)

namespace Eval.CutsTo

variable {α β γ δ : Type} {f : α → β} {g : γ → δ}

theorem pure (a : α) : CutsTo f (Pure.pure a) (Pure.pure (f a)) :=
  fun _ => rfl

theorem throw (e : EvalError) : CutsTo f (MonadExcept.throw e) (MonadExcept.throw e) :=
  fun _ => rfl

theorem bind {x : Eval α} {y : Eval β} {k : α → Eval γ} {k' : β → Eval δ}
    (h : CutsTo f x y) (hk : ∀ a, CutsTo g (k a) (k' (f a))) : CutsTo g (x >>= k) (y >>= k') := by
  intro m
  rw [Eval.on_bind, Eval.on_bind, h m]
  cases x.on m with
  | none => rfl
  | some outcome =>
    obtain ⟨result, m'⟩ := outcome
    cases result with
    | error e => rfl
    | ok a => exact hk a m'

theorem lookup (host : Host) (name : String) :
    CutsTo Value.cut (Eval.lookup host name) (Eval.lookup host name) := by
  intro m
  rw [Eval.on_lookup, Eval.on_lookup, Machine.cut, Host.resolve_cut]
  rfl

theorem requireUnbound (name : String) :
    CutsTo id (Eval.requireUnbound name) (Eval.requireUnbound name) := by
  intro m
  rw [Eval.on_requireUnbound, Eval.on_requireUnbound, Machine.cut, Scope.contains_cut]
  split <;> rfl

theorem declare (name : String) (v : Value) :
    CutsTo id (Eval.declare name v) (Eval.declare name v.cut) := by
  intro m
  rw [Eval.on_declare, Eval.on_declare, Machine.cut, Scope.declare_cut]
  cases m.scope.declare name v <;> rfl

theorem onSink {k : Sink → Option (Except EvalError α × Sink)}
    {k' : Sink → Option (Except EvalError β × Sink)}
    (h : ∀ sink, k' sink = (k sink).map fun (r, sink') => (r.map f, sink')) :
    CutsTo f (Eval.onSink k) (Eval.onSink k') := by
  intro m
  rw [Eval.on_onSink, Eval.on_onSink, Machine.cut, h, Option.map_map, Option.map_map]
  rfl

end Eval.CutsTo

/-- The answer of a call, with its value cut. -/
def cutAnswer (o : Except EvalError (Option Value) × Sink) :
    Except EvalError (Option Value) × Sink :=
  (o.1.map (Option.map Value.cut), o.2)

/-- A cut function called with cut values does what the function does, up to a cut. -/
def Caller.Cuts (call : Caller) : Prop :=
  ∀ d arguments sink,
    call d.cut (arguments.map Value.cut) sink = (call d arguments sink).map cutAnswer

/-- So it is with a builtin that does not look behind a return. -/
def HostFunction.Cuts (f : HostFunction) : Prop :=
  ∀ arguments sink, f (arguments.map Value.cut) sink = cutAnswer (f arguments sink)

def Host.Cuts (host : Host) : Prop :=
  ∀ b f, host.function? b = some f → f.Cuts

theorem println_cut : HostFunction.Cuts println := by
  intro arguments sink
  have hd : (arguments.map Value.cut).map Value.display = arguments.map Value.display := by
    simp
  unfold println
  rw [hd]
  dsimp only
  split <;> rfl

theorem Host.standardWith_cuts {others : String → Option HostFunction}
    (h : ∀ b f, others b = some f → f.Cuts) : (standardWith others).Cuts :=
  fun _ _ => of_function?_standardWith println_cut h

def Completion.cut : Completion → Completion
  | finished last => finished (last.map Value.cut)
  | returned v => returned v.cut

theorem Completion.answer_cut (c : Completion) : c.cut.answer = c.answer.map Value.cut := by
  cases c <;> rfl

theorem Completion.result_cut (c : Completion) : c.cut.result = c.result.map Value.cut := by
  cases c <;> rfl

section

variable {host : Host} {call : Caller}

theorem invoke_cut (hh : host.Cuts) (hc : call.Cuts) (name : String) (callee : Value)
    (arguments : List Value) :
    (Eval.invoke host call name callee arguments).CutsTo (Option.map Value.cut)
      (Eval.invoke host call name callee.cut (arguments.map Value.cut)) := by
  cases callee with
  | function d => exact .onSink (hc d arguments)
  | builtin b =>
    simp only [Value.cut, Eval.invoke]
    cases hf : host.function? b with
    | none => exact .throw _
    | some f => exact .onSink fun sink => congrArg some (hh b f hf arguments sink)
  | number n => exact .throw _
  | text content => exact .throw _

theorem callWith_cut (hh : host.Cuts) (hc : call.Cuts) (callee : String)
    {x y : Eval (List Value)} (h : x.CutsTo (List.map Value.cut) y) :
    (callWith host call callee x).CutsTo (Option.map Value.cut) (callWith host call callee y) :=
  (Eval.CutsTo.lookup host callee).bind fun _ => h.bind fun _ => invoke_cut hh hc _ _ _

mutual

theorem evalExpr_cut (hh : host.Cuts) (hc : call.Cuts) :
    ∀ e : Expr, (evalExpr host call e).CutsTo Value.cut (evalExpr host call e.cut)
  | .number raw => by
    rw [Expr.cut, evalExpr]
    cases numberOf? raw with
    | none => exact .throw _
    | some n => exact .pure _
  | .text content => by
    rw [Expr.cut, evalExpr]
    exact .pure _
  | .variable name => by
    rw [Expr.cut, evalExpr]
    exact .lookup host name
  | .binary op l r => by
    rw [Expr.cut, evalExpr, evalExpr]
    refine (evalExpr_cut hh hc l).bind fun a => (evalExpr_cut hh hc r).bind fun b => ?_
    rw [Operator.onValues_cut]
    cases op.onValues a b with
    | ok v => exact .pure _
    | error e => exact .throw _
  | .call callee arguments => by
    rw [Expr.cut, evalExpr, evalExpr]
    refine (callWith_cut hh hc callee (evalAll_cut hh hc arguments)).bind ?_
    rintro (_ | v)
    · exact .throw _
    · exact .pure _
  | .function d => by
    rw [Expr.cut, evalExpr, evalExpr, Definition.cut_name]
    exact (Eval.CutsTo.declare d.name (.function d)).bind fun _ => .pure _

theorem evalAll_cut (hh : host.Cuts) (hc : call.Cuts) :
    ∀ es : List Expr,
      (evalAll host call es).CutsTo (List.map Value.cut) (evalAll host call (Expr.cutAll es))
  | [] => by
    rw [Expr.cutAll, evalAll]
    exact .pure _
  | e :: es => by
    rw [Expr.cutAll, evalAll, evalAll]
    exact (evalExpr_cut hh hc e).bind fun _ => (evalAll_cut hh hc es).bind fun _ => .pure _

end

/-- A node is evaluated for its value, cut or not, unless it is a function or a call. -/
theorem Expr.cut_of_value {e : Expr} (hf : ∀ d, e = .function d → False)
    (hc : ∀ callee arguments, e = .call callee arguments → False) :
    (∀ d, e.cut = .function d → False) ∧
      ∀ callee arguments, e.cut = .call callee arguments → False := by
  cases e <;> simp_all [Expr.cut]

theorem evalNode_cut (hh : host.Cuts) (hc : call.Cuts) (n : Node) :
    (evalNode host call n).CutsTo Completion.cut (evalNode host call n.cut) := by
  fun_cases evalNode host call n with
  | case1 form name e =>
    rw [Node.cut, evalNode]
    exact (Eval.CutsTo.requireUnbound name).bind fun _ => (evalExpr_cut hh hc e).bind fun v =>
      (Eval.CutsTo.declare name v).bind fun _ => .pure _
  | case2 e =>
    rw [Node.cut, evalNode]
    exact (evalExpr_cut hh hc e).bind fun _ => .pure _
  | case3 d =>
    rw [Node.cut, Expr.cut, evalNode, Definition.cut_name]
    exact (Eval.CutsTo.declare d.name (.function d)).bind fun _ => .pure _
  | case4 callee arguments =>
    rw [Node.cut, Expr.cut, evalNode]
    exact (callWith_cut hh hc callee (evalAll_cut hh hc arguments)).bind fun _ => .pure _
  | case5 e hf hcall =>
    obtain ⟨hf', hcall'⟩ := Expr.cut_of_value hf hcall
    rw [Node.cut, evalNode.eq_5 host call e.cut hf' hcall']
    exact (evalExpr_cut hh hc e).bind fun _ => .pure _

/-- Nothing behind a return counts. -/
theorem evalNodes_ret (host : Host) (call : Caller) (last : Option Value) (e : Expr)
    (ns : List Node) :
    evalNodes host call last (.ret e :: ns) =
      evalExpr host call e >>= fun v => return .returned v := by
  simp only [evalNodes, evalNode, bind_assoc, pure_bind]

theorem evalNodes_cut (hh : host.Cuts) (hc : call.Cuts) (last : Option Value) (ns : List Node) :
    (evalNodes host call last ns).CutsTo Completion.cut
      (evalNodes host call (last.map Value.cut) (Node.cutAll ns)) := by
  induction ns generalizing last with
  | nil => exact .pure _
  | cons n ns ih =>
    cases n with
    | ret e =>
      rw [Node.cutAll, evalNodes_ret, evalNodes_ret]
      exact (evalExpr_cut hh hc e).bind fun _ => .pure _
    | declare _ _ _ | expr _ =>
      rw [Node.cutAll.eq_3 _ _ (by simp), evalNodes, evalNodes]
      refine (evalNode_cut hh hc _).bind ?_
      rintro (last | v)
      · exact ih last
      · exact .pure _

theorem callBody_cuts (hh : host.Cuts) (hc : call.Cuts) : (callBody host call).Cuts := by
  intro d arguments sink
  unfold callBody
  rw [Scope.frame_cut]
  cases Scope.frame d arguments with
  | error e => rfl
  | ok frame =>
    have hb := evalNodes_cut hh hc none d.body ⟨frame, sink⟩
    simp only [Machine.cut, Option.map_none] at hb
    simp only [Except.map, Definition.cut_body, hb, Option.map_map]
    congr 1
    funext o
    obtain ⟨ending, m⟩ := o
    cases ending with
    | error e => rfl
    | ok c =>
      simp only [Function.comp, cutOutcome, cutAnswer, Except.map, Completion.answer_cut]
      rfl

end

theorem callWithin_cuts {host : Host} (hh : host.Cuts) (depth : Nat) :
    (callWithin host depth).Cuts := by
  induction depth with
  | zero => exact fun _ _ _ => rfl
  | succ depth ih => exact callBody_cuts hh ih

theorem evalProgram_cutsTo {host : Host} (hh : host.Cuts) (depth : Nat) (p : Program) :
    (evalProgram host depth p).CutsTo (Option.map Value.cut)
      (evalProgram host depth (Node.cutAll p)) := by
  refine (evalNodes_cut hh (callWithin_cuts hh depth) none p).bind fun c => ?_
  rw [Completion.result_cut]
  exact .pure _

/-- What stands behind a return is never run. With all of it cut off, in the program and in the
functions of the scope, a run ends if and only if it did before. Then it writes the same and fails
with the same error or gives the same value cut, and it leaves the same scope cut. No builtin of the
scope may look behind a return either. -/
theorem evalProgram_cut {others : String → Option HostFunction}
    (hothers : ∀ b f, others b = some f → f.Cuts) (p : Program) (env : Scope) (sink : Sink)
    (r' : Except EvalError (Option Value)) (m' : Machine) :
    EvaluatesTo (.standardWith others) (Node.cutAll p) ⟨env.cut, sink⟩ (r', m') ↔
      ∃ r m, EvaluatesTo (.standardWith others) p ⟨env, sink⟩ (r, m) ∧
        r' = r.map (Option.map Value.cut) ∧ m'.scope = m.scope.cut ∧ m'.sink = m.sink := by
  have hcuts (depth : Nat) :=
    evalProgram_cutsTo (Host.standardWith_cuts hothers) depth p ⟨env, sink⟩
  constructor
  · rintro ⟨depth, h⟩
    have hc := hcuts depth
    rw [Machine.cut, h] at hc
    obtain ⟨⟨r, m⟩, ho, he⟩ := Option.map_eq_some_iff.mp hc.symm
    cases he
    exact ⟨r, m, ⟨depth, ho⟩, rfl, rfl, rfl⟩
  · rintro ⟨r, m, ⟨depth, h⟩, rfl, hs, hk⟩
    have hc := hcuts depth
    have hm : m' = m.cut := by
      cases m'
      rw [Machine.cut, ← hs, ← hk]
    rw [h] at hc
    exact ⟨depth, by rw [hm]; exact hc⟩

theorem firstArgument_cuts : HostFunction.Cuts firstArgument := by
  intro arguments sink
  rw [firstArgument, List.head?_map]
  rfl

/-- A function is cut, and so is what a builtin of the scope gives back of it. -/
theorem evalProgram_cut_function :
    ∃ m m', EvaluatesTo (.standardWith (onlyBuiltin "first" firstArgument))
        [.expr (.function ⟨"f", [], [.ret (.number "1"), .ret (.number "2")]⟩),
          .ret (.call "b" [.variable "f"]), .expr (.number "3")]
        ⟨.holding "b" "first", .unlimited⟩
        (.ok (some (.function ⟨"f", [], [.ret (.number "1"), .ret (.number "2")]⟩)), m) ∧
      EvaluatesTo (.standardWith (onlyBuiltin "first" firstArgument))
        [.expr (.function ⟨"f", [], [.ret (.number "1")]⟩), .ret (.call "b" [.variable "f"])]
        ⟨.holding "b" "first", .unlimited⟩
        (.ok (some (.function ⟨"f", [], [.ret (.number "1")]⟩)), m') ∧
      m'.scope = m.scope.cut := by
  have hrun : EvaluatesTo (.standardWith (onlyBuiltin "first" firstArgument))
      [.expr (.function ⟨"f", [], [.ret (.number "1"), .ret (.number "2")]⟩),
        .ret (.call "b" [.variable "f"]), .expr (.number "3")]
      ⟨.holding "b" "first", .unlimited⟩
      (.ok (some (.function ⟨"f", [], [.ret (.number "1"), .ret (.number "2")]⟩)), _) := ⟨0, rfl⟩
  have hcut := (evalProgram_cut (fun _ _ => of_onlyBuiltin firstArgument_cuts) _ _ _ _
    (Machine.cut _)).mpr ⟨_, _, hrun, rfl, rfl, rfl⟩
  exact ⟨_, _, hrun, hcut, rfl⟩

/-- Gives the number of nodes in the body of a function. -/
def bodyLength : HostFunction
  | .function d :: _, sink => (.ok (some (.number d.body.length)), sink)
  | _, sink => (.ok none, sink)

/-- A builtin that only the scope holds can look behind a return. -/
theorem cut_noticed_by_builtin :
    ∃ m m', EvaluatesTo (.standardWith (onlyBuiltin "length" bodyLength))
        [.expr (.function ⟨"f", [], [.ret (.number "1"), .ret (.number "2")]⟩),
          .expr (.call "b" [.variable "f"])]
        ⟨.holding "b" "length", .unlimited⟩ (.ok (some (.number 2)), m) ∧
      EvaluatesTo (.standardWith (onlyBuiltin "length" bodyLength))
        (Node.cutAll [.expr (.function ⟨"f", [], [.ret (.number "1"), .ret (.number "2")]⟩),
          .expr (.call "b" [.variable "f"])])
        ⟨(Scope.holding "b" "length").cut, .unlimited⟩
        (.ok (some (.number 1)), m') ∧
      Value.cut (.number 2) ≠ .number 1 :=
  ⟨_, _, ⟨0, rfl⟩, ⟨0, rfl⟩, by decide⟩

end TinyScript
