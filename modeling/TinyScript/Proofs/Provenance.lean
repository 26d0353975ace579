import TinyScript.Proofs.Discipline

/-!
Where values come from. A run takes numbers and texts from literals and operations, and functions
only from its own text and from the functions it starts with, where those inside a body come to
light when the body runs. This holds of every value that a run ever binds, passes or gives.
-/

namespace TinyScript

/-- A part of a run, carried out in the scope of one call or of the top level. -/
inductive Task where
  | nodes (ns : List Node)
  | node (n : Node)
  | expr (e : Expr)
  | arguments (es : List Expr)
  | invoke (callee : Value) (values : List Value)

/-- A run of `p` from the machine `start` comes to the task on the machine `m`. Calls in the task
may nest `depth` deep. What precedes the task in its scope has been evaluated by then. -/
inductive Comes (host : Host) (p : Program) (start : Machine) : Nat → Task → Machine → Prop where
  | start (depth : Nat) : Comes host p start depth (.nodes p) start
  | first {depth : Nat} {n : Node} {ns : List Node} {m : Machine}
      (h : Comes host p start depth (.nodes (n :: ns)) m) : Comes host p start depth (.node n) m
  | next {depth : Nat} {n : Node} {ns : List Node} {m m' : Machine} {last : Option Value}
      (h : Comes host p start depth (.nodes (n :: ns)) m)
      (hn : (evalNode host (callWithin host depth) n).on m = some (.ok (.finished last), m')) :
      Comes host p start depth (.nodes ns) m'
  | initial {depth : Nat} {form : Declarator} {name : String} {e : Expr} {m : Machine}
      (h : Comes host p start depth (.node (.declare form name e)) m)
      (hu : m.scope.contains name = false) : Comes host p start depth (.expr e) m
  | ret {depth : Nat} {e : Expr} {m : Machine} (h : Comes host p start depth (.node (.ret e)) m) :
      Comes host p start depth (.expr e) m
  | alone {depth : Nat} {e : Expr} {m : Machine}
      (h : Comes host p start depth (.node (.expr e)) m) : Comes host p start depth (.expr e) m
  | left {depth : Nat} {op : Operator} {l r : Expr} {m : Machine}
      (h : Comes host p start depth (.expr (.binary op l r)) m) :
      Comes host p start depth (.expr l) m
  | right {depth : Nat} {op : Operator} {l r : Expr} {m m' : Machine} {v : Value}
      (h : Comes host p start depth (.expr (.binary op l r)) m)
      (hl : (evalExpr host (callWithin host depth) l).on m = some (.ok v, m')) :
      Comes host p start depth (.expr r) m'
  | arguments {depth : Nat} {callee : String} {es : List Expr} {m : Machine} {f : Value}
      (h : Comes host p start depth (.expr (.call callee es)) m)
      (hf : host.resolve m.scope callee = .ok f) : Comes host p start depth (.arguments es) m
  | argument {depth : Nat} {e : Expr} {es : List Expr} {m : Machine}
      (h : Comes host p start depth (.arguments (e :: es)) m) : Comes host p start depth (.expr e) m
  | others {depth : Nat} {e : Expr} {es : List Expr} {m m' : Machine} {v : Value}
      (h : Comes host p start depth (.arguments (e :: es)) m)
      (he : (evalExpr host (callWithin host depth) e).on m = some (.ok v, m')) :
      Comes host p start depth (.arguments es) m'
  | invoke {depth : Nat} {callee : String} {es : List Expr} {m m' : Machine} {f : Value}
      {values : List Value} (h : Comes host p start depth (.expr (.call callee es)) m)
      (hf : host.resolve m.scope callee = .ok f)
      (hv : (evalAll host (callWithin host depth) es).on m = some (.ok values, m')) :
      Comes host p start depth (.invoke f values) m'
  | body {depth : Nat} {d : Definition} {values : List Value} {m : Machine} {s : Scope}
      (h : Comes host p start (depth + 1) (.invoke (.function d) values) m)
      (hs : Scope.frame d values = .ok s) :
      Comes host p start depth (.nodes d.body) ⟨s, m.sink⟩

/-- The scope of a call or of the top level, at some time of the run or when its nodes have come to
an end. -/
inductive HasScope (host : Host) (p : Program) (start : Machine) : Scope → Prop where
  | during {depth : Nat} {task : Task} {m : Machine} (h : Comes host p start depth task m) :
      HasScope host p start m.scope
  | after {depth : Nat} {ns : List Node} {m m' : Machine} {ending : Except EvalError Completion}
      (h : Comes host p start depth (.nodes ns) m)
      (hr : (evalNodes host (callWithin host depth) none ns).on m = some (ending, m')) :
      HasScope host p start m'.scope

/-- A function that is written in the program or in a function of the scope, at any depth. -/
def Definition.StemsFrom (p : Program) (env : Scope) (d : Definition) : Prop :=
  d ∈ Node.definitionsAll p ∨
    ∃ name outer, env.get? name = some (.function outer) ∧ d ∈ outer.definitions

/-- A value that a run of the program from the scope `env` does not make up. -/
inductive Value.StemsFrom (p : Program) (env : Scope) : Value → Prop where
  | number {n : Int} (h : fits n = true) : StemsFrom p env (.number n)
  | text (content : String) : StemsFrom p env (.text content)
  | function {d : Definition} (h : d.StemsFrom p env) : StemsFrom p env (.function d)
  | println : StemsFrom p env (.builtin "println")
  | held {name b : String} (h : env.get? name = some (.builtin b)) : StemsFrom p env (.builtin b)

def Scope.StemsFrom (s : Scope) (p : Program) (env : Scope) : Prop :=
  ∀ name v, s.get? name = some v → v.StemsFrom p env

/-- What the task has in it, outside the bodies of functions. -/
def Task.occurrences : Task → List Occurrence
  | nodes ns => Node.occurrencesAll ns
  | node n => n.occurrences
  | expr e => e.occurrences
  | arguments es => Expr.occurrencesAll es
  | invoke _ _ => []

/-- The values that the task starts with. -/
def Task.values : Task → List Value
  | invoke callee values => callee :: values
  | _ => []

structure Task.StemsFrom (p : Program) (env : Scope) (task : Task) : Prop where
  functions : ∀ d, .function d ∈ task.occurrences → d.StemsFrom p env
  values : ∀ v ∈ task.values, v.StemsFrom p env

/-- A builtin that gives back what it was given, or a number or a text. -/
def HostFunction.Conveys (f : HostFunction) : Prop :=
  ∀ arguments sink v sink', f arguments sink = (.ok (some v), sink') →
    v ∈ arguments ∨ (∃ n, v = .number n ∧ fits n = true) ∨ ∃ content, v = .text content

/-- Evaluation in which no value is made up. -/
def stemming (p : Program) (env : Scope) : Discipline where
  scope s := s.StemsFrom p env
  value := Value.StemsFrom p env
  callee := Value.StemsFrom p env
  error _ := True
  stuck := True

section

variable {p : Program} {env : Scope} {others : String → Option HostFunction}

/-- The functions inside a body stem from where its function does. -/
theorem Definition.StemsFrom.inner {d inner : Definition} (h : d.StemsFrom p env)
    (hi : .function inner ∈ Node.occurrencesAll d.body) : inner.StemsFrom p env := by
  have hm : inner ∈ d.definitions := Definition.definitions_subset hi inner.mem_definitions_self
  rcases h with h | ⟨name, outer, hg, h⟩
  · exact .inl (Node.definitionsAll_trans p h hm)
  · exact .inr ⟨name, outer, hg, Definition.definitions_trans outer h hm⟩

theorem Scope.StemsFrom.declare_result {s : Scope} (h : s.StemsFrom p env) {v : Value}
    (hv : v.StemsFrom p env) (name : String) :
    ResultIs (Scope.StemsFrom · p env) (fun _ => True) (s.declare name v) := by
  cases hd : s.declare name v with
  | error e => trivial
  | ok t => exact Scope.forall_of_declare h hv hd

theorem Scope.StemsFrom.resolve_result {s : Scope} (h : s.StemsFrom p env)
    (others : String → Option HostFunction) (name : String) :
    ResultIs (Value.StemsFrom p env) (fun _ => True)
      ((Host.standardWith others).resolve s name) := by
  unfold Host.resolve
  cases hg : s.get? name with
  | some v => exact h name v hg
  | none =>
    dsimp only
    split
    · rename_i hn
      have hname : name = "println" := by simpa [Host.standardWith] using hn
      rw [hname]
      exact .println
    · trivial

theorem Scope.StemsFrom.frame_result {d : Definition} {arguments : List Value}
    (ha : ∀ a ∈ arguments, a.StemsFrom p env) :
    ResultIs (Scope.StemsFrom · p env) (fun _ => True) (Scope.frame d arguments) := by
  cases hf : Scope.frame d arguments with
  | error e => trivial
  | ok s => exact fun name v hv => ha v (Scope.mem_of_get?_frame hf hv).2

theorem stemming_admits {o : Occurrence} (h : ∀ d, o = .function d → d.StemsFrom p env) :
    (stemming p env).Admits (.standardWith others) o := by
  match o, h with
  | .variable name, _ => exact fun s hs => hs.resolve_result others name
  | .callee name, _ => exact fun s hs => hs.resolve_result others name
  | .declared name, _ => exact fun s v hs hv => hs.declare_result hv name
  | .function d, h =>
    have hv := Value.StemsFrom.function (h d rfl)
    exact ⟨hv, fun s hs => hs.declare_result hv d.name⟩

/-- The body of a function makes up no values if calls in it do not. -/
theorem stemming_body {call : Caller} (rules : (stemming p env).Rules (.standardWith others) call)
    {d : Definition} (hd : d.StemsFrom p env) {arguments : List Value}
    (ha : ∀ a ∈ arguments, a.StemsFrom p env) (sink : Sink) :
    (stemming p env).Answers (callBody (.standardWith others) call d arguments sink) := by
  have hb := Discipline.evalNodes_keeps rules d.body
    (fun o ho => stemming_admits fun inner hi => hd.inner (hi ▸ ho)) none (by simp)
  exact Discipline.answers_callBody (Scope.StemsFrom.frame_result ha)
    (hb.mono (fun _ h => h) (fun _ _ h => h.2) fun _ _ h => h.2) sink

theorem HostFunction.Conveys.allowed {f : HostFunction} (hf : f.Conveys) :
    (stemming p env).Allows f := by
  intro arguments sink ha
  cases ho : f arguments sink with
  | mk result sink' =>
    cases result with
    | error e => trivial
    | ok answer =>
      rintro v ⟨rfl⟩
      rcases hf _ _ _ _ ho with hm | ⟨n, rfl, hn⟩ | ⟨content, rfl⟩
      · exact ha v hm
      · exact .number hn
      · exact .text content

theorem stemming_rules {call : Caller} (hothers : ∀ b f, others b = some f → f.Conveys)
    (hcall : ∀ d arguments sink, d.StemsFrom p env → (∀ a ∈ arguments, a.StemsFrom p env) →
      (stemming p env).Answers (call d arguments sink)) :
    (stemming p env).Rules (.standardWith others) call := by
  refine Discipline.Rules.standardWith (fun _ => .number) .text (fun _ _ => trivial) ?_
    fun b f hf => (hothers b f hf).allowed
  intro d arguments sink hd ha
  cases hd with
  | function hd => exact hcall d arguments sink hd ha

/-- Nothing is made up at any depth of calls, if the builtins make up nothing. -/
theorem callWithin_stemming (hothers : ∀ b f, others b = some f → f.Conveys) (depth : Nat) :
    (stemming p env).Rules (.standardWith others) (callWithin (.standardWith others) depth) := by
  induction depth with
  | zero => exact stemming_rules hothers fun _ _ _ _ _ => trivial
  | succ depth ih =>
    exact stemming_rules hothers fun d arguments sink hd ha => stemming_body ih hd ha sink

/-- What a run starts with. -/
theorem stemsFrom_env (henv : ∀ name n, env.get? name = some (.number n) → fits n = true) :
    env.StemsFrom p env := by
  intro name v hv
  cases v with
  | number n => exact .number (henv name n hv)
  | text content => exact .text content
  | function d => exact .function (.inr ⟨name, d, hv, d.mem_definitions_self⟩)
  | builtin b => exact .held hv

theorem stemsFrom_program {d : Definition} (h : .function d ∈ Node.occurrencesAll p) :
    d.StemsFrom p env :=
  .inl ((Node.mem_definitionsAll_iff p).mpr ⟨d, h, d.mem_definitions_self⟩)

/-- A part of a task that has no values yet. -/
theorem Task.StemsFrom.part {task : Task} (h : task.StemsFrom p env) (part : Task)
    (ho : part.occurrences ⊆ task.occurrences) (hv : part.values = []) : part.StemsFrom p env :=
  ⟨fun d hd => h.functions d (ho hd), by simp [hv]⟩

theorem Task.StemsFrom.admits {task : Task} (h : task.StemsFrom p env) :
    ∀ o ∈ task.occurrences, (stemming p env).Admits (.standardWith others) o :=
  fun _ ho => stemming_admits fun d hd => h.functions d (hd ▸ ho)

/-- Wherever a run comes, all that it has at hand stems from where it started. -/
theorem Comes.stemsFrom (hothers : ∀ b f, others b = some f → f.Conveys)
    (henv : ∀ name n, env.get? name = some (.number n) → fits n = true) {sink : Sink}
    {depth : Nat} {task : Task} {m : Machine}
    (h : Comes (.standardWith others) p ⟨env, sink⟩ depth task m) :
    task.StemsFrom p env ∧ m.scope.StemsFrom p env := by
  -- where something was evaluated before the task, the scope is what that has left
  induction h with
  | start depth =>
    exact ⟨⟨fun d hd => stemsFrom_program hd, by simp [Task.values]⟩, stemsFrom_env henv⟩
  | @first depth n ns m h ih =>
    exact ⟨ih.1.part (.node n) (List.subset_append_left _ _) rfl, ih.2⟩
  | @next depth n ns m m' last h hn ih =>
    have hnode := ih.1.part (.node n) (List.subset_append_left _ _) rfl
    have hk := Discipline.evalNode_keeps (callWithin_stemming hothers depth) n hnode.admits
    exact ⟨ih.1.part (.nodes ns) (List.subset_append_right _ _) rfl, (hk.outcome hn ih.2).1⟩
  | @initial depth form name e m h hu ih =>
    exact ⟨ih.1.part (.expr e) (List.subset_cons_self _ _) rfl, ih.2⟩
  | @ret depth e m h ih => exact ⟨ih.1.part (.expr e) (List.Subset.refl _) rfl, ih.2⟩
  | @alone depth e m h ih => exact ⟨ih.1.part (.expr e) (List.Subset.refl _) rfl, ih.2⟩
  | @left depth op l r m h ih =>
    exact ⟨ih.1.part (.expr l) (List.subset_append_left _ _) rfl, ih.2⟩
  | @right depth op l r m m' v h hl ih =>
    have hleft := ih.1.part (.expr l) (List.subset_append_left _ _) rfl
    have hk := Discipline.evalExpr_keeps (callWithin_stemming hothers depth) l hleft.admits
    exact ⟨ih.1.part (.expr r) (List.subset_append_right _ _) rfl, (hk.outcome hl ih.2).1⟩
  | @arguments depth callee es m f h hf ih =>
    exact ⟨ih.1.part (.arguments es) (List.subset_cons_self _ _) rfl, ih.2⟩
  | @argument depth e es m h ih =>
    exact ⟨ih.1.part (.expr e) (List.subset_append_left _ _) rfl, ih.2⟩
  | @others depth e es m m' v h he ih =>
    have hfirst := ih.1.part (.expr e) (List.subset_append_left _ _) rfl
    have hk := Discipline.evalExpr_keeps (callWithin_stemming hothers depth) e hfirst.admits
    exact ⟨ih.1.part (.arguments es) (List.subset_append_right _ _) rfl, (hk.outcome he ih.2).1⟩
  | @invoke depth callee es m m' f values h hf hv ih =>
    have hall := ih.1.part (.arguments es) (List.subset_cons_self _ _) rfl
    have hk := Discipline.evalAll_keeps (callWithin_stemming hothers depth) es hall.admits
    obtain ⟨hscope, hvalues⟩ := hk.outcome hv ih.2
    have hcallee := ih.2.resolve_result others callee
    rw [hf] at hcallee
    exact ⟨⟨by simp [Task.occurrences], List.forall_mem_cons.mpr ⟨hcallee, hvalues⟩⟩, hscope⟩
  | @body depth d values m s h hs ih =>
    obtain ⟨hcallee, hvalues⟩ := List.forall_mem_cons.mp ih.1.values
    have hframe := Scope.StemsFrom.frame_result (d := d) hvalues
    rw [hs] at hframe
    cases hcallee with
    | function hd => exact ⟨⟨fun inner hi => hd.inner hi, by simp [Task.values]⟩, hframe⟩

theorem HasScope.stemsFrom (hothers : ∀ b f, others b = some f → f.Conveys)
    (henv : ∀ name n, env.get? name = some (.number n) → fits n = true) {sink : Sink} {s : Scope}
    (h : HasScope (.standardWith others) p ⟨env, sink⟩ s) : s.StemsFrom p env := by
  cases h with
  | during h => exact (h.stemsFrom hothers henv).2
  | @after depth ns m m' ending h hr =>
    obtain ⟨htask, hscope⟩ := h.stemsFrom hothers henv
    have hk := Discipline.evalNodes_keeps (callWithin_stemming hothers depth) ns htask.admits none
      (by simp)
    exact (hk.outcome hr hscope).1

end

/-- No value is made up. With the standard builtins, and with builtins in the scope that make up
nothing themselves, every function that a run gives, leaves bound, passes as an argument or binds in
any call at any time is written in the program or in a function that the scope held at the start;
every builtin is the standard one or was in that scope; and every number is in range, as those of
the scope are. -/
theorem evalProgram_stemsFrom {others : String → Option HostFunction}
    (hothers : ∀ b f, others b = some f → f.Conveys) (p : Program) {env : Scope}
    (henv : ∀ name n, env.get? name = some (.number n) → fits n = true) (sink : Sink) :
    (∀ r m, EvaluatesTo (.standardWith others) p ⟨env, sink⟩ (r, m) →
      (∀ v, r = .ok (some v) → v.StemsFrom p env) ∧ m.scope.StemsFrom p env) ∧
    (∀ depth callee values m,
      Comes (.standardWith others) p ⟨env, sink⟩ depth (.invoke callee values) m →
      ∀ v ∈ values, v.StemsFrom p env) ∧
    ∀ s, HasScope (.standardWith others) p ⟨env, sink⟩ s → s.StemsFrom p env := by
  refine ⟨?_, ?_, fun s h => h.stemsFrom hothers henv⟩
  · rintro r m ⟨depth, hr⟩
    have hstart : Comes (.standardWith others) p ⟨env, sink⟩ depth (.nodes p) ⟨env, sink⟩ :=
      .start depth
    obtain ⟨htask, hfirst⟩ := hstart.stemsFrom hothers henv
    have hk := Discipline.evalProgram_keeps (callWithin_stemming hothers depth) p htask.admits
    obtain ⟨hscope, hresult⟩ := hk.outcome hr hfirst
    refine ⟨?_, hscope⟩
    rintro v rfl
    exact hresult v rfl
  · intro depth callee values m h
    exact (List.forall_mem_cons.mp (h.stemsFrom hothers henv).1.values).2

theorem firstArgument_conveys : HostFunction.Conveys firstArgument := by
  intro arguments sink v sink' h
  have hv : arguments.head? = some v := Except.ok.inj (Prod.mk.inj h).1
  exact .inl (List.mem_of_head? hv)

def identity : Definition :=
  ⟨"id", ["x"], [.ret (.variable "x")]⟩

/-- A scope that holds a builtin and a function. -/
def Scope.withFirst : Scope :=
  ⟨[("first", .builtin "first"), ("id", .function identity)], by decide⟩

/-- A function that binds its first argument to another name and calls it with the second. -/
def applying : Program :=
  [.expr (.function ⟨"apply", ["f", "x"],
      [.declare .mutable "g" (.variable "f"), .ret (.call "g" [.variable "x"])]⟩),
    .expr (.call "apply" [.variable "first", .variable "id"])]

/-- A function from the scope is passed on by two calls, the second of a builtin that only the scope
holds, and is the result. -/
theorem evalProgram_stemsFrom_applying :
    (∃ m, EvaluatesTo (.standardWith (onlyBuiltin "first" firstArgument)) applying
        ⟨.withFirst, .unlimited⟩ (.ok (some (.function identity)), m) ∧
      Value.StemsFrom applying .withFirst (.function identity)) ∧
    ∃ m, Comes (.standardWith (onlyBuiltin "first" firstArgument)) applying
        ⟨.withFirst, .unlimited⟩ 0 (.invoke (.builtin "first") [.function identity]) m ∧
      m.scope.get? "g" = some (.builtin "first") ∧ m.scope.StemsFrom applying .withFirst := by
  have henv : ∀ name n, Scope.withFirst.get? name = some (.number n) → fits n = true := by
    intro name n hg
    have hm := Scope.mem_of_get? hg
    simp [Scope.withFirst] at hm
  have hothers b f (hf : onlyBuiltin "first" firstArgument b = some f) : f.Conveys :=
    of_onlyBuiltin firstArgument_conveys hf
  have h := evalProgram_stemsFrom hothers applying henv .unlimited
  have hrun : EvaluatesTo (.standardWith (onlyBuiltin "first" firstArgument)) applying
      ⟨.withFirst, .unlimited⟩ (.ok (some (.function identity)), _) := ⟨1, rfl⟩
  have houter : Comes (.standardWith (onlyBuiltin "first" firstArgument)) applying
      ⟨.withFirst, .unlimited⟩ 1
      (.invoke (.function _) [.builtin "first", .function identity]) _ :=
    .invoke (.alone (.first (.next (.start 1) rfl))) rfl rfl
  have hinner : Comes (.standardWith (onlyBuiltin "first" firstArgument)) applying
      ⟨.withFirst, .unlimited⟩ 0 (.invoke (.builtin "first") [.function identity]) _ :=
    .invoke (.ret (.first (.next (.body houter rfl) rfl))) rfl rfl
  exact ⟨⟨_, hrun, (h.1 _ _ hrun).1 _ rfl⟩, _, hinner, rfl, h.2.2 _ (.during hinner)⟩

/-- A builtin that only the scope holds can make up a function, though the program defines none and
the scope holds neither functions nor numbers. -/
theorem made_up_by_builtin :
    (∃ m, EvaluatesTo (.standardWith (onlyBuiltin "make" (giving (.function identity))))
      [.expr (.call "b" [])] ⟨.holding "b" "make", .unlimited⟩
      (.ok (some (.function identity)), m)) ∧
    (∀ name n, (Scope.holding "b" "make").get? name ≠ some (.number n)) ∧
    ¬ Value.StemsFrom [.expr (.call "b" [])] (.holding "b" "make")
      (.function identity) := by
  refine ⟨⟨_, 0, rfl⟩, ?_, ?_⟩
  · intro name n hg
    cases Scope.eq_of_get?_holding hg
  · intro h
    cases h with
    | function hd =>
      rcases hd with hd | ⟨name, outer, hg, -⟩
      · simp [Node.definitionsAll, Node.definitions, Expr.definitions, Expr.definitionsAll] at hd
      · cases Scope.eq_of_get?_holding hg

end TinyScript
