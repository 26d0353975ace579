import TinyScript.Proofs.Depth
import TinyScript.Proofs.Occurrence

/-!
Runs in two scopes. A program consults its scope for the names that stand in it, and for no name
that is only inside a body: functions see the scope of no caller and keep none. So two scopes that
agree on the names of the program are alike to it.
-/

namespace TinyScript

/-- Each of the names is bound to the same value in both scopes, or is bound in neither. -/
def Scope.AgreeOn (names : List String) (s t : Scope) : Prop :=
  ∀ name ∈ names, s.get? name = t.get? name

theorem Scope.AgreeOn.contains_eq {names : List String} {s t : Scope} (h : s.AgreeOn names t)
    {name : String} (hn : name ∈ names) : s.contains name = t.contains name := by
  rw [Scope.contains, Scope.contains, h name hn]

theorem Scope.AgreeOn.resolve_eq {names : List String} {s t : Scope} (h : s.AgreeOn names t)
    {name : String} (hn : name ∈ names) (host : Host) :
    host.resolve s name = host.resolve t name := by
  rw [Host.resolve, Host.resolve, h name hn]

/-- The same new bindings leave scopes in agreement. -/
theorem Scope.AgreeOn.grow {names : List String} {s t s' t' : Scope} (h : s.AgreeOn names t)
    {added : List (String × Value)} (hs : s'.bindings = added ++ s.bindings)
    (ht : t'.bindings = added ++ t.bindings) : s'.AgreeOn names t' := by
  intro name hn
  have he : s.bindings.lookup name = t.bindings.lookup name := h name hn
  rw [Scope.get?, Scope.get?, hs, ht, List.lookup_append, List.lookup_append, he]

/-- Outcomes of runs that started in `s` and `t`: they give the same and leave the same output, and
the same was added to both scopes. -/
structure SameOutcome {α : Type} (s t : Scope) (o o' : Except EvalError α × Machine) : Prop where
  result : o.1 = o'.1
  sink : o.2.sink = o'.2.sink
  scope : ∃ added, o.2.scope.bindings = added ++ s.bindings ∧
    o'.2.scope.bindings = added ++ t.bindings

/-- What came before added the same to both scopes. -/
theorem SameOutcome.before {α : Type} {s t s' t' : Scope} {o o' : Except EvalError α × Machine}
    (h : SameOutcome s' t' o o') {added : List (String × Value)}
    (hs : s'.bindings = added ++ s.bindings) (ht : t'.bindings = added ++ t.bindings) :
    SameOutcome s t o o' := by
  obtain ⟨later, hs', ht'⟩ := h.scope
  exact ⟨h.result, h.sink, later ++ added, by simp [hs', hs], by simp [ht', ht]⟩

/-- Scopes that agree on the names are alike to `x`. -/
def Eval.DependsOn {α : Type} (names : List String) (x : Eval α) : Prop :=
  ∀ s t, s.AgreeOn names t → ∀ sink,
    Option.Rel (SameOutcome s t) (x.on ⟨s, sink⟩) (x.on ⟨t, sink⟩)

namespace Eval.DependsOn

variable {names : List String} {α β : Type}

/-- What leaves the scope alone. -/
theorem of_eq {x : Eval α} {f : Scope → Sink → Option (Except EvalError α × Sink)}
    (hx : ∀ s sink, x.on ⟨s, sink⟩ = (f s sink).map fun (r, sink') => (r, ⟨s, sink'⟩))
    (hf : ∀ s t, s.AgreeOn names t → ∀ sink, f s sink = f t sink) :
    Eval.DependsOn names x := by
  intro s t h sink
  rw [hx, hx, hf s t h]
  cases f t sink with
  | none => exact .none
  | some outcome => exact .some ⟨rfl, rfl, [], rfl, rfl⟩

theorem pure (a : α) : Eval.DependsOn names (Pure.pure a : Eval α) :=
  of_eq (fun _ _ => rfl) (f := fun _ sink => some (.ok a, sink)) fun _ _ _ _ => rfl

theorem throw (e : EvalError) : Eval.DependsOn names (MonadExcept.throw e : Eval α) :=
  of_eq (fun _ _ => rfl) (f := fun _ sink => some (.error e, sink)) fun _ _ _ _ => rfl

theorem onSink (f : Sink → Option (Except EvalError α × Sink)) :
    Eval.DependsOn names (Eval.onSink f) :=
  of_eq (fun _ _ => rfl) (f := fun _ => f) fun _ _ _ _ => rfl

theorem lookup {name : String} (hn : name ∈ names) (host : Host) :
    Eval.DependsOn names (Eval.lookup host name) := by
  apply of_eq (f := fun s sink => some (host.resolve s name, sink))
  · intro s sink
    exact Eval.on_lookup host name ⟨s, sink⟩
  · intro s t h sink
    rw [h.resolve_eq hn]

theorem requireUnbound {name : String} (hn : name ∈ names) :
    Eval.DependsOn names (Eval.requireUnbound name) := by
  apply of_eq (f := fun s sink =>
    some (if s.contains name then .error (.alreadyBound name) else .ok (), sink))
  · intro s sink
    exact Eval.on_requireUnbound name ⟨s, sink⟩
  · intro s t h sink
    rw [h.contains_eq hn]

theorem declare {name : String} (hn : name ∈ names) (v : Value) :
    Eval.DependsOn names (Eval.declare name v) := by
  intro s t h sink
  rw [Eval.on_declare, Eval.on_declare]
  dsimp only
  cases hc : s.contains name with
  | true =>
    rw [Scope.declare_of_contains hc, Scope.declare_of_contains (h.contains_eq hn ▸ hc)]
    exact .some ⟨rfl, rfl, [], rfl, rfl⟩
  | false =>
    obtain ⟨s', hs, hbs⟩ := Scope.declare_of_not_contains hc v
    obtain ⟨t', ht, hbt⟩ := Scope.declare_of_not_contains (h.contains_eq hn ▸ hc) v
    rw [hs, ht]
    exact .some ⟨rfl, rfl, [(name, v)], hbs, hbt⟩

/-- The second part starts in scopes that have grown alike. -/
theorem bind {x : Eval α} {f : α → Eval β} (hx : Eval.DependsOn names x)
    (hf : ∀ a, Eval.DependsOn names (f a)) : Eval.DependsOn names (x >>= f) := by
  intro s t h sink
  rw [Eval.on_bind, Eval.on_bind]
  have ho := hx s t h sink
  generalize x.on ⟨s, sink⟩ = first at ho ⊢
  generalize x.on ⟨t, sink⟩ = first' at ho ⊢
  cases ho with
  | none => exact .none
  | @some o o' ho =>
    obtain ⟨r, s', sink'⟩ := o
    obtain ⟨r', t', sink''⟩ := o'
    obtain ⟨rfl, rfl, added, hs, ht⟩ := ho
    cases r with
    | error e => exact .some ⟨rfl, rfl, added, hs, ht⟩
    | ok a =>
      dsimp only at hs ht ⊢
      have hr := hf a s' t' (h.grow hs ht) sink'
      generalize (f a).on ⟨s', sink'⟩ = second at hr ⊢
      generalize (f a).on ⟨t', sink'⟩ = second' at hr ⊢
      cases hr with
      | none => exact .none
      | some hr => exact .some (hr.before hs ht)

end Eval.DependsOn

section

variable {names : List String} (host : Host) (call : Caller)

theorem invoke_dependsOn (name : String) (callee : Value) (arguments : List Value) :
    (Eval.invoke host call name callee arguments).DependsOn names := by
  unfold Eval.invoke
  cases callee with
  | function d => exact .onSink _
  | builtin b =>
    dsimp only
    cases host.function? b with
    | none => exact .throw _
    | some f => exact .onSink _
  | number n => exact .throw _
  | text content => exact .throw _

theorem callWith_dependsOn {callee : String} (hc : callee ∈ names) {x : Eval (List Value)}
    (hx : x.DependsOn names) : (callWith host call callee x).DependsOn names :=
  (Eval.DependsOn.lookup hc host).bind fun _ => hx.bind fun _ => invoke_dependsOn host call _ _ _

mutual

theorem evalExpr_dependsOn : ∀ e : Expr, (∀ o ∈ e.occurrences, o.name ∈ names) →
    (evalExpr host call e).DependsOn names
  | .number raw, _ => by
    rw [evalExpr]
    cases numberOf? raw with
    | none => exact .throw _
    | some n => exact .pure _
  | .text content, _ => by
    rw [evalExpr]
    exact .pure _
  | .variable name, h => by
    rw [evalExpr]
    exact .lookup (h (.variable name) (by simp [Expr.occurrences])) host
  | .binary op l r, h => by
    rw [evalExpr]
    have hl := evalExpr_dependsOn l fun o ho => h o (by simp [Expr.occurrences, ho])
    have hr := evalExpr_dependsOn r fun o ho => h o (by simp [Expr.occurrences, ho])
    refine hl.bind fun a => hr.bind fun b => ?_
    cases op.onValues a b with
    | ok v => exact .pure _
    | error e => exact .throw _
  | .call callee arguments, h => by
    rw [evalExpr]
    have hc := h (.callee callee) (by simp [Expr.occurrences])
    have ha := evalAll_dependsOn arguments fun o ho => h o (by simp [Expr.occurrences, ho])
    refine (callWith_dependsOn host call hc ha).bind ?_
    rintro (_ | v)
    · exact .throw _
    · exact .pure _
  | .function d, h => by
    rw [evalExpr]
    have hd := h (.function d) (by simp [Expr.occurrences])
    exact (Eval.DependsOn.declare hd _).bind fun _ => .pure _

theorem evalAll_dependsOn : ∀ es : List Expr,
    (∀ o ∈ Expr.occurrencesAll es, o.name ∈ names) → (evalAll host call es).DependsOn names
  | [], _ => by
    rw [evalAll]
    exact .pure _
  | e :: es, h => by
    rw [evalAll]
    have he := evalExpr_dependsOn e fun o ho => h o (by simp [Expr.occurrencesAll, ho])
    have hes := evalAll_dependsOn es fun o ho => h o (by simp [Expr.occurrencesAll, ho])
    exact he.bind fun _ => hes.bind fun _ => .pure _

end

theorem evalNode_dependsOn (n : Node) (h : ∀ o ∈ n.occurrences, o.name ∈ names) :
    (evalNode host call n).DependsOn names := by
  fun_cases evalNode host call n with
  | case1 form name e =>
    have hn : name ∈ names := h (.declared name) (by simp [Node.occurrences])
    have he := evalExpr_dependsOn host call e fun o ho => h o (by simp [Node.occurrences, ho])
    exact (Eval.DependsOn.requireUnbound hn).bind fun _ => he.bind fun v =>
      (Eval.DependsOn.declare hn v).bind fun _ => .pure _
  | case2 e => exact (evalExpr_dependsOn host call e h).bind fun _ => .pure _
  | case3 d =>
    have hd := h (.function d) (by simp [Node.occurrences, Expr.occurrences])
    exact (Eval.DependsOn.declare hd _).bind fun _ => .pure _
  | case4 callee arguments =>
    have hc := h (.callee callee) (by simp [Node.occurrences, Expr.occurrences])
    have ha := evalAll_dependsOn host call arguments fun o ho =>
      h o (by simp [Node.occurrences, Expr.occurrences, ho])
    exact (callWith_dependsOn host call hc ha).bind fun _ => .pure _
  | case5 e hf hc => exact (evalExpr_dependsOn host call e h).bind fun _ => .pure _

theorem evalNodes_dependsOn (last : Option Value) (ns : List Node)
    (h : ∀ o ∈ Node.occurrencesAll ns, o.name ∈ names) :
    (evalNodes host call last ns).DependsOn names := by
  induction ns generalizing last with
  | nil => exact .pure _
  | cons n ns ih =>
    simp only [Node.occurrencesAll, List.flatMap_cons, List.forall_mem_append] at h
    refine (evalNode_dependsOn host call n h.1).bind ?_
    rintro (last | v)
    · exact ih last h.2
    · exact .pure _

end

/-- The names that stand in a program, outside the bodies of its functions. -/
def Program.names (p : Program) : List String :=
  (Node.occurrencesAll p).map Occurrence.name

theorem evalProgram_dependsOn (host : Host) (depth : Nat) (p : Program) :
    (evalProgram host depth p).DependsOn p.names :=
  (evalNodes_dependsOn host _ none p fun _ ho => List.mem_map_of_mem ho).bind fun _ => .pure _

/-- A program does the same in any two scopes that agree on its names, whatever else they bind. If
it ends in one of them within some depth, it ends in the other within that depth; and if it ends
in both, the outcomes are the same and the same was added to both scopes. -/
theorem evalProgram_sameOutcome (host : Host) (p : Program) {s t : Scope}
    (h : s.AgreeOn p.names t) (sink : Sink) :
    (∀ depth, Option.Rel (SameOutcome s t) ((evalProgram host depth p).on ⟨s, sink⟩)
      ((evalProgram host depth p).on ⟨t, sink⟩)) ∧
    ∀ r r', EvaluatesTo host p ⟨s, sink⟩ r → EvaluatesTo host p ⟨t, sink⟩ r' →
      SameOutcome s t r r' := by
  have hsame := fun depth => evalProgram_dependsOn host depth p s t h sink
  refine ⟨hsame, ?_⟩
  rintro r r' ⟨depth, hr⟩ ⟨depth', hr'⟩
  have hm := evalProgram_below host (Nat.le_max_left depth depth') p _ _ hr
  have hm' := evalProgram_below host (Nat.le_max_right depth depth') p _ _ hr'
  have ho := hsame (max depth depth')
  rw [hm, hm'] at ho
  cases ho with
  | some ho => exact ho

/-- A variable that stands in a body only is not found, be it bound around the call or not. -/
theorem evalProgram_sameOutcome_body :
    ∃ r r', EvaluatesTo .standard
        [.expr (.function ⟨"f", [], [.ret (.variable "a")]⟩), .expr (.call "f" [])]
        ⟨⟨[("a", .number 1)], by decide⟩, .unlimited⟩ r ∧
      EvaluatesTo .standard
        [.expr (.function ⟨"f", [], [.ret (.variable "a")]⟩), .expr (.call "f" [])]
        ⟨.empty, .unlimited⟩ r' ∧
      r.1 = .error (.unbound "a") ∧
      SameOutcome ⟨[("a", .number 1)], by decide⟩ .empty r r' := by
  refine ⟨_, _, ⟨1, rfl⟩, ⟨1, rfl⟩, rfl, ?_⟩
  apply (evalProgram_sameOutcome .standard
    [.expr (.function ⟨"f", [], [.ret (.variable "a")]⟩), .expr (.call "f" [])] ?_
    .unlimited).2 _ _ ⟨1, rfl⟩ ⟨1, rfl⟩
  intro name hn
  have hf : name = "f" := by
    simpa [Program.names, Node.occurrencesAll, Node.occurrences, Expr.occurrences,
      Expr.occurrencesAll, Occurrence.name] using hn
  rw [hf]
  rfl

end TinyScript
