import TinyScript.Proofs.Depth
import TinyScript.Proofs.Occurrence

/-!
What an evaluation keeps to. A discipline says which values may arise and which of them may be
called, which errors may arise, and what holds of the scope all the time. If it admits every
occurrence in a tree, and calls keep to it, so does the evaluation of the tree.
-/

namespace TinyScript

/-- What is asked of a result: `good` of its value or `bad` of its error. -/
def ResultIs {ε α : Type} (good : α → Prop) (bad : ε → Prop) : Except ε α → Prop
  | .ok a => good a
  | .error e => bad e

theorem resultIs_true {ε α : Type} (r : Except ε α) :
    ResultIs (fun _ => True) (fun _ => True) r := by
  cases r <;> trivial

/-- Where `pre` holds of the scope, `x` leaves a value and a scope with `post`, or an error and a
scope with `fail`. It may have no outcome only if `stuck` holds. -/
def Eval.Ensures {α : Type} (stuck : Prop) (pre : Scope → Prop) (x : Eval α)
    (post : α → Scope → Prop) (fail : EvalError → Scope → Prop) : Prop :=
  ∀ m, pre m.scope →
    match x.on m with
    | none => stuck
    | some (.ok a, m') => post a m'.scope
    | some (.error e, m') => fail e m'.scope

namespace Eval.Ensures

variable {α β : Type} {stuck : Prop} {pre : Scope → Prop} {post : α → Scope → Prop}
  {fail : EvalError → Scope → Prop}

theorem pure {a : α} (h : ∀ s, pre s → post a s) :
    Ensures stuck pre (Pure.pure a : Eval α) post fail :=
  fun m hm => h m.scope hm

theorem throw {e : EvalError} (h : ∀ s, pre s → fail e s) :
    Ensures stuck pre (MonadExcept.throw e : Eval α) post fail :=
  fun m hm => h m.scope hm

theorem bind {x : Eval β} {f : β → Eval α} {mid : β → Scope → Prop}
    (hx : Ensures stuck pre x mid fail) (hf : ∀ b, Ensures stuck (mid b) (f b) post fail) :
    Ensures stuck pre (x >>= f) post fail := by
  intro m hm
  have h := hx m hm
  rw [Eval.on_bind]
  cases ho : x.on m with
  | none =>
    rw [ho] at h
    exact h
  | some outcome =>
    obtain ⟨result, m'⟩ := outcome
    rw [ho] at h
    cases result with
    | error e => exact h
    | ok b => exact hf b m' h

theorem mono {x : Eval α} {pre' : Scope → Prop} {post' : α → Scope → Prop}
    {fail' : EvalError → Scope → Prop} (h : Ensures stuck pre x post fail)
    (hpre : ∀ s, pre' s → pre s) (hpost : ∀ a s, post a s → post' a s)
    (hfail : ∀ e s, fail e s → fail' e s) : Ensures stuck pre' x post' fail' := by
  intro m hm
  have hx := h m (hpre _ hm)
  cases ho : x.on m with
  | none =>
    rw [ho] at hx
    exact hx
  | some outcome =>
    obtain ⟨result, m'⟩ := outcome
    rw [ho] at hx
    cases result with
    | error e => exact hfail _ _ hx
    | ok a => exact hpost _ _ hx

/-- What holds of any scope can be assumed beforehand. -/
theorem assume {x : Eval α} {p : Prop} (h : p → Ensures stuck pre x post fail) :
    Ensures stuck (fun s => pre s ∧ p) x post fail :=
  fun m hm => h hm.2 m hm.1

theorem lookup {host : Host} {name : String} {post : Value → Scope → Prop}
    (h : ∀ s, pre s → ResultIs (post · s) (fail · s) (host.resolve s name)) :
    Ensures stuck pre (Eval.lookup host name) post fail := by
  intro m hm
  have hr := h m.scope hm
  rw [Eval.on_lookup]
  cases hv : host.resolve m.scope name <;> rw [hv] at hr <;> exact hr

theorem declare {name : String} {v : Value} {post : Unit → Scope → Prop}
    (h : ∀ s, pre s → ResultIs (post ()) (fail · s) (s.declare name v)) :
    Ensures stuck pre (Eval.declare name v) post fail := by
  intro m hm
  have hr := h m.scope hm
  rw [Eval.on_declare]
  cases hs : m.scope.declare name v <;> rw [hs] at hr <;> exact hr

theorem requireUnbound {name : String} {post : Unit → Scope → Prop}
    (hu : ∀ s, pre s → s.contains name = false → post () s)
    (hb : ∀ s, pre s → s.contains name = true → fail (.alreadyBound name) s) :
    Ensures stuck pre (Eval.requireUnbound name) post fail := by
  intro m hm
  rw [Eval.on_requireUnbound]
  cases hc : m.scope.contains name with
  | false => exact hu m.scope hm hc
  | true => exact hb m.scope hm hc

theorem onSink {f : Sink → Option (Except EvalError α × Sink)}
    (h : ∀ s sink, pre s → match f sink with
      | none => stuck
      | some (r, _) => ResultIs (post · s) (fail · s) r) :
    Ensures stuck pre (Eval.onSink f) post fail := by
  intro m hm
  have hr := h m.scope m.sink hm
  rw [Eval.on_onSink]
  cases ho : f m.sink with
  | none =>
    rw [ho] at hr
    exact hr
  | some outcome =>
    obtain ⟨result, sink⟩ := outcome
    rw [ho] at hr
    cases result <;> exact hr

end Eval.Ensures

/-- Whether an error is about a name that is bound or is not. -/
def EvalError.aboutBinding : EvalError → Bool
  | unbound _ | alreadyBound _ => true
  | _ => false

/-- What an evaluation may meet and what it must keep. -/
structure Discipline where
  scope : Scope → Prop
  value : Value → Prop
  /-- The values that may be called. -/
  callee : Value → Prop
  error : EvalError → Prop
  /-- Whether calls may nest deeper than is allowed. -/
  stuck : Prop

namespace Discipline

variable {D : Discipline} {host : Host} {call : Caller} {α β : Type}

/-- Where the discipline holds, `x` keeps it, and its value is `good`. -/
def Keeps (D : Discipline) (x : Eval α) (good : α → Prop) : Prop :=
  Eval.Ensures D.stuck D.scope x (fun a s => D.scope s ∧ good a)
    (fun e s => D.scope s ∧ D.error e)

/-- A call gives nothing, a value that may arise or an error that may arise. -/
def Answers (D : Discipline) : Option (Except EvalError (Option Value) × Sink) → Prop
  | none => D.stuck
  | some (r, _) => ResultIs (fun answer => ∀ v ∈ answer, D.value v) D.error r

/-- Evaluation can come upon the occurrence. -/
def Admits (D : Discipline) (host : Host) : Occurrence → Prop
  | .variable name => ∀ s, D.scope s → ResultIs D.value D.error (host.resolve s name)
  | .callee name => ∀ s, D.scope s → ResultIs D.callee D.error (host.resolve s name)
  | .declared name =>
    ∀ s v, D.scope s → D.value v → ResultIs D.scope D.error (s.declare name v)
  | .function d =>
    D.value (.function d) ∧
      ∀ s, D.scope s → ResultIs D.scope D.error (s.declare d.name (.function d))

/-- What does not depend on the tree: literals and operations are allowed, and calls keep to the
discipline. -/
structure Rules (D : Discipline) (host : Host) (call : Caller) : Prop where
  number : ∀ n, fits n = true → D.value (.number n)
  text : ∀ content, D.value (.text content)
  error : ∀ e, e.aboutBinding = false → D.error e
  call : ∀ d arguments sink, D.callee (.function d) → (∀ a ∈ arguments, D.value a) →
    D.Answers (call d arguments sink)
  builtin : ∀ b f arguments sink, host.function? b = some f → D.callee (.builtin b) →
    (∀ a ∈ arguments, D.value a) → D.Answers (some (f arguments sink))

theorem Keeps.pure {a : α} {good : α → Prop} (h : good a) :
    D.Keeps (Pure.pure a : Eval α) good :=
  Eval.Ensures.pure fun _ hs => ⟨hs, h⟩

theorem Keeps.throw {e : EvalError} (h : D.error e) (good : α → Prop) :
    D.Keeps (MonadExcept.throw e : Eval α) good :=
  Eval.Ensures.throw fun _ hs => ⟨hs, h⟩

/-- What an outcome keeps to, be it a value or an error. -/
theorem Keeps.outcome {x : Eval α} {good : α → Prop} (h : D.Keeps x good) {m m' : Machine}
    {r : Except EvalError α} (hr : x.on m = some (r, m')) (hm : D.scope m.scope) :
    D.scope m'.scope ∧ ResultIs good D.error r := by
  have ho := h m hm
  rw [hr] at ho
  cases r with
  | ok a => exact ho
  | error e => exact ho

/-- What follows may end outside the discipline. -/
theorem Keeps.followedBy {x : Eval α} {f : α → Eval β} {good : α → Prop}
    {post : β → Scope → Prop} (hx : D.Keeps x good)
    (hf : ∀ a, good a → Eval.Ensures D.stuck D.scope (f a) post
      (fun e s => D.scope s ∧ D.error e)) :
    Eval.Ensures D.stuck D.scope (x >>= f) post (fun e s => D.scope s ∧ D.error e) :=
  Eval.Ensures.bind hx fun a => .assume (hf a)

theorem Keeps.bind {x : Eval α} {f : α → Eval β} {good : α → Prop} {good' : β → Prop}
    (hx : D.Keeps x good) (hf : ∀ a, good a → D.Keeps (f a) good') :
    D.Keeps (x >>= f) good' :=
  hx.followedBy hf

/-- A binding that leads out of the discipline, to where `bound` holds. -/
theorem declare_ensures {name : String} {v : Value} {bound : Scope → Prop}
    (h : ∀ s, D.scope s → ResultIs bound D.error (s.declare name v)) :
    Eval.Ensures D.stuck D.scope (Eval.declare name v) (fun _ => bound)
      (fun e s => D.scope s ∧ D.error e) := by
  apply Eval.Ensures.declare
  intro s hs
  have hr := h s hs
  cases hd : s.declare name v with
  | ok t =>
    rw [hd] at hr
    exact hr
  | error e =>
    rw [hd] at hr
    exact ⟨hs, hr⟩

theorem Keeps.declare {name : String} {v : Value}
    (h : ∀ s, D.scope s → ResultIs D.scope D.error (s.declare name v)) :
    D.Keeps (Eval.declare name v) fun _ => True :=
  (declare_ensures h).mono (fun _ hs => hs) (fun _ _ hs => ⟨hs, trivial⟩) fun _ _ he => he

theorem Keeps.lookup {name : String} {good : Value → Prop}
    (h : ∀ s, D.scope s → ResultIs good D.error (host.resolve s name)) :
    D.Keeps (Eval.lookup host name) good := by
  apply Eval.Ensures.lookup
  intro s hs
  have hr := h s hs
  cases hv : host.resolve s name <;> rw [hv] at hr <;> exact ⟨hs, hr⟩

theorem Keeps.onSink {f : Sink → Option (Except EvalError (Option Value) × Sink)}
    (h : ∀ sink, D.Answers (f sink)) :
    D.Keeps (Eval.onSink f) fun answer => ∀ v ∈ answer, D.value v := by
  apply Eval.Ensures.onSink
  intro s sink hs
  have hr := h sink
  cases ho : f sink with
  | none =>
    rw [ho] at hr
    exact hr
  | some outcome =>
    obtain ⟨result, sink'⟩ := outcome
    rw [ho] at hr
    cases result <;> exact ⟨hs, hr⟩

/-- Where every value and every error is allowed, nothing can go against the rules. -/
theorem Rules.of_forall (hv : ∀ v, D.value v) (he : ∀ e, D.error e) (hs : D.stuck) :
    D.Rules host call := by
  have answers : ∀ outcome, D.Answers outcome := by
    rintro (_ | ⟨_ | _, _⟩)
    · exact hs
    · exact he _
    · exact fun v _ => hv v
  exact ⟨fun n _ => hv _, fun content => hv _, fun e _ => he e, fun _ _ _ _ _ => answers _,
    fun _ _ _ _ _ _ _ => answers _⟩

theorem Rules.onValues (rules : D.Rules host call) (op : Operator) (a b : Value) :
    ResultIs D.value D.error (op.onValues a b) := by
  unfold Operator.onValues
  split
  · rename_i m n
    cases hr : op.onNumbers m n with
    | ok r => exact rules.number r (fits_of_onNumbers hr)
    | error e =>
      apply rules.error e
      unfold Operator.onNumbers at hr
      split at hr
      · cases hr
        rfl
      · split at hr <;> cases hr
        rfl
  · split
    · exact rules.text _
    · exact rules.error _ rfl

/-- The test before a declaration fails only where the declaration would. -/
theorem Rules.requireUnbound_keeps (rules : D.Rules host call) {name : String}
    {good : Scope → Prop}
    (h : ∀ s v, D.scope s → D.value v → ResultIs good D.error (s.declare name v)) :
    D.Keeps (Eval.requireUnbound name) fun _ => True := by
  refine .requireUnbound (fun s hs _ => ⟨hs, trivial⟩) fun s hs hc => ⟨hs, ?_⟩
  have hd := h s (.text "") hs (rules.text "")
  rw [Scope.declare_of_contains hc] at hd
  exact hd

theorem invoke_keeps (rules : D.Rules host call) (name : String) {callee : Value}
    (hc : D.callee callee) {arguments : List Value} (ha : ∀ a ∈ arguments, D.value a) :
    D.Keeps (Eval.invoke host call name callee arguments) fun answer =>
      ∀ v ∈ answer, D.value v := by
  unfold Eval.invoke
  cases callee with
  | function d => exact .onSink fun sink => rules.call d arguments sink hc ha
  | builtin b =>
    dsimp only
    cases hf : host.function? b with
    | none => exact .throw (rules.error _ rfl) _
    | some f => exact .onSink fun sink => rules.builtin b f arguments sink hf hc ha
  | number n => exact .throw (rules.error _ rfl) _
  | text content => exact .throw (rules.error _ rfl) _

theorem callWith_keeps (rules : D.Rules host call) {callee : String}
    (hc : D.Admits host (.callee callee)) {x : Eval (List Value)}
    (hx : D.Keeps x fun values => ∀ v ∈ values, D.value v) :
    D.Keeps (callWith host call callee x) fun answer => ∀ v ∈ answer, D.value v :=
  (Keeps.lookup hc).bind fun _ hf => hx.bind fun _ hv => invoke_keeps rules callee hf hv

mutual

theorem evalExpr_keeps (rules : D.Rules host call) : ∀ e : Expr,
    (∀ o ∈ e.occurrences, D.Admits host o) → D.Keeps (evalExpr host call e) D.value
  | .number raw, _ => by
    rw [evalExpr]
    cases hn : numberOf? raw with
    | none => exact .throw (rules.error _ rfl) _
    | some n => exact .pure (rules.number n (numberOf?_eq_some_iff.mp hn).2)
  | .text content, _ => by
    rw [evalExpr]
    exact .pure (rules.text content)
  | .variable name, h => by
    rw [evalExpr]
    exact .lookup (h (.variable name) (by simp [Expr.occurrences]))
  | .binary op l r, h => by
    rw [evalExpr]
    have hl := evalExpr_keeps rules l fun o ho => h o (by simp [Expr.occurrences, ho])
    have hr := evalExpr_keeps rules r fun o ho => h o (by simp [Expr.occurrences, ho])
    refine hl.bind fun a _ => hr.bind fun b _ => ?_
    have hv := rules.onValues op a b
    cases ho : op.onValues a b with
    | ok v =>
      rw [ho] at hv
      exact .pure hv
    | error e =>
      rw [ho] at hv
      exact .throw hv _
  | .call callee arguments, h => by
    rw [evalExpr]
    have ha := evalAll_keeps rules arguments fun o ho => h o (by simp [Expr.occurrences, ho])
    refine (callWith_keeps rules (h (.callee callee) (by simp [Expr.occurrences])) ha).bind ?_
    rintro (_ | v) hv
    · exact .throw (rules.error _ rfl) _
    · exact .pure (hv v rfl)
  | .function d, h => by
    rw [evalExpr]
    obtain ⟨hv, hd⟩ := h (.function d) (by simp [Expr.occurrences])
    exact (Keeps.declare hd).bind fun _ _ => .pure hv

theorem evalAll_keeps (rules : D.Rules host call) : ∀ es : List Expr,
    (∀ o ∈ Expr.occurrencesAll es, D.Admits host o) →
    D.Keeps (evalAll host call es) fun values => ∀ v ∈ values, D.value v
  | [], _ => by
    rw [evalAll]
    exact .pure (by simp)
  | e :: es, h => by
    rw [evalAll]
    have he := evalExpr_keeps rules e fun o ho => h o (by simp [Expr.occurrencesAll, ho])
    have hes := evalAll_keeps rules es fun o ho => h o (by simp [Expr.occurrencesAll, ho])
    exact he.bind fun v hv => hes.bind fun vs hvs =>
      .pure (List.forall_mem_cons.mpr ⟨hv, hvs⟩)

end

/-- The value that a sequence ends with, if any, may arise. -/
theorem evalNode_keeps (rules : D.Rules host call) (n : Node)
    (h : ∀ o ∈ n.occurrences, D.Admits host o) :
    D.Keeps (evalNode host call n) fun c => ∀ v ∈ c.result, D.value v := by
  fun_cases evalNode host call n with
  | case1 form name e =>
    have hn := h (.declared name) (by simp [Node.occurrences])
    have he := evalExpr_keeps rules e fun o ho => h o (by simp [Node.occurrences, ho])
    refine (rules.requireUnbound_keeps hn).bind fun _ _ => he.bind fun v hv => ?_
    have hd : D.Keeps (Eval.declare name v) fun _ => True := .declare fun s hs => hn s v hs hv
    exact hd.bind fun _ _ => .pure (by simp [Completion.result])
  | case2 e =>
    refine (evalExpr_keeps rules e h).bind fun v hv => .pure ?_
    simpa [Completion.result] using hv
  | case3 d =>
    obtain ⟨_, hd⟩ := h (.function d) (by simp [Node.occurrences, Expr.occurrences])
    exact (Keeps.declare hd).bind fun _ _ => .pure (by simp [Completion.result])
  | case4 callee arguments =>
    have hc := h (.callee callee) (by simp [Node.occurrences, Expr.occurrences])
    have ha := evalAll_keeps rules arguments fun o ho =>
      h o (by simp [Node.occurrences, Expr.occurrences, ho])
    exact (callWith_keeps rules hc ha).bind fun _ hv => .pure hv
  | case5 e hf hc =>
    refine (evalExpr_keeps rules e h).bind fun v hv => .pure ?_
    simpa [Completion.result] using hv

theorem evalNodes_keeps (rules : D.Rules host call) (ns : List Node)
    (h : ∀ o ∈ Node.occurrencesAll ns, D.Admits host o) (last : Option Value)
    (hl : ∀ v ∈ last, D.value v) :
    D.Keeps (evalNodes host call last ns) fun c => ∀ v ∈ c.result, D.value v := by
  induction ns generalizing last with
  | nil => exact .pure hl
  | cons n ns ih =>
    have hn := evalNode_keeps rules n fun o ho =>
      h o (Node.mem_occurrencesAll_iff.mpr ⟨n, by simp, ho⟩)
    refine hn.bind ?_
    rintro (last' | v) hc
    · refine ih (fun o ho => h o ?_) last' hc
      obtain ⟨n', hm, ho⟩ := Node.mem_occurrencesAll_iff.mp ho
      exact Node.mem_occurrencesAll_iff.mpr ⟨n', by simp [hm], ho⟩
    · exact .pure hc

theorem evalProgram_keeps {depth : Nat} (rules : D.Rules host (callWithin host depth))
    (p : Program) (h : ∀ o ∈ Node.occurrencesAll p, D.Admits host o) :
    D.Keeps (evalProgram host depth p) fun result => ∀ v ∈ result, D.value v :=
  (evalNodes_keeps rules p h none (by simp)).bind fun _ hc => .pure hc

/-- A node keeps to the discipline until it binds its name, and binding the name is the last that
it does. -/
theorem evalNode_ensures (rules : D.Rules host call) {n : Node} (hp : n.Plain)
    (hl : ∀ o ∈ n.occurrences, ∀ name, o.lookup? = some name → D.Admits host o)
    (hf : ∀ d, .function d ∈ n.occurrences → D.value (.function d))
    {bound : String → Scope → Prop}
    (hb : ∀ name ∈ n.binds?, ∀ s v, D.scope s → D.value v →
      ResultIs (bound name) D.error (s.declare name v)) :
    Eval.Ensures D.stuck D.scope (evalNode host call n)
      (fun c s => n.binds?.elim D.scope bound s ∧ ∀ v ∈ c.result, D.value v)
      (fun e s => D.scope s ∧ D.error e) := by
  cases hp with
  | @declare form name e he =>
    have hd := hb name rfl
    have hv := evalExpr_keeps rules e fun o ho =>
      (he.lookup? ho).elim (hl o (by simp [Node.occurrences, ho]))
    rw [evalNode]
    refine (rules.requireUnbound_keeps hd).followedBy fun _ _ => hv.followedBy fun v hv => ?_
    exact (declare_ensures fun s hs => hd s v hs hv).bind fun _ =>
      .pure fun _ hs => ⟨hs, by simp [Completion.result]⟩
  | @ret e he => exact evalNode_keeps rules (.ret e) fun o ho => (he.lookup? ho).elim (hl o ho)
  | @expr e he =>
    rw [he.binds?_eq_none]
    exact evalNode_keeps rules (.expr e) fun o ho => (he.lookup? ho).elim (hl o ho)
  | function d =>
    have hv := hf d (by simp [Node.occurrences, Expr.occurrences])
    rw [evalNode]
    exact (declare_ensures fun s hs => hb d.name rfl s _ hs hv).bind fun _ =>
      .pure fun _ hs => ⟨hs, by simp [Completion.result]⟩

/-- A body that keeps to the discipline in its own scope gives calls that do, as a call answers with
nothing that the body has not ended with. -/
theorem answers_callBody {d : Definition} {arguments : List Value} {pre : Scope → Prop}
    (hf : ResultIs pre D.error (Scope.frame d arguments))
    (hb : Eval.Ensures D.stuck pre (evalNodes host call none d.body)
      (fun c _ => ∀ v ∈ c.result, D.value v) (fun e _ => D.error e)) (sink : Sink) :
    D.Answers (callBody host call d arguments sink) := by
  unfold callBody
  cases hs : Scope.frame d arguments with
  | error e =>
    rw [hs] at hf
    exact hf
  | ok s =>
    rw [hs] at hf
    have ho := hb ⟨s, sink⟩ hf
    dsimp only
    cases hr : (evalNodes host call none d.body).on ⟨s, sink⟩ with
    | none =>
      rw [hr] at ho
      exact ho
    | some outcome =>
      obtain ⟨result, m⟩ := outcome
      rw [hr] at ho
      cases result with
      | error e => exact ho
      | ok c =>
        cases c with
        | finished last =>
          intro v hv
          cases hv
        | returned v => exact ho

/-- Printing gives no value and fails only in writing. -/
theorem println_result (arguments : List Value) (sink : Sink) :
    ResultIs (· = none) (fun e => ∃ reason, e = .outputFailed reason)
      (println arguments sink).1 := by
  unfold println Sink.write
  dsimp only
  split
  · rename_i hw
    rfl
  · rename_i hw
    split at hw <;> cases hw
    exact ⟨_, rfl⟩

/-- A builtin that keeps to the discipline: given values that may arise, it gives such a value or
fails with an error that may arise. -/
def Allows (D : Discipline) (f : HostFunction) : Prop :=
  ∀ arguments sink, (∀ a ∈ arguments, D.value a) →
    ResultIs (fun answer => ∀ v ∈ answer, D.value v) D.error (f arguments sink).1

theorem println_allowed (error : ∀ e, e.aboutBinding = false → D.error e) : D.Allows println := by
  intro arguments sink _
  have hr := println_result arguments sink
  cases hp : (println arguments sink).1 with
  | ok answer =>
    rw [hp] at hr
    intro v hv
    rw [show answer = none from hr] at hv
    cases hv
  | error e =>
    rw [hp] at hr
    obtain ⟨reason, rfl⟩ := hr
    exact error _ rfl

theorem giving_allowed {v : Value} (h : D.value v) : D.Allows (giving v) := by
  rintro arguments sink _ w ⟨rfl⟩
  exact h

/-- With `println` as the only builtin that is seen, the calls of defined functions and of other
builtins are all that is left to check. -/
theorem Rules.standardWith {others : String → Option HostFunction}
    (number : ∀ n, fits n = true → D.value (.number n))
    (text : ∀ content, D.value (.text content))
    (error : ∀ e, e.aboutBinding = false → D.error e)
    (hcall : ∀ d arguments sink, D.callee (.function d) → (∀ a ∈ arguments, D.value a) →
      D.Answers (call d arguments sink))
    (hothers : ∀ b f, others b = some f → D.Allows f) : D.Rules (.standardWith others) call := by
  refine ⟨number, text, error, hcall, fun b f arguments sink hf _ ha => ?_⟩
  exact Host.of_function?_standardWith (println_allowed error) hothers hf arguments sink ha

end Discipline

end TinyScript
