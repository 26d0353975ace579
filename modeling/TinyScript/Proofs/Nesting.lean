import TinyScript.Proofs.Discipline

/-!
How deep calls nest. A body can call what it gets as a value, or a function that is written inside
it. Without the first kind of call every call leads to a function that is nested less deep, so all
runs end, and calls nest no deeper than functions do.
-/

namespace TinyScript

mutual

/-- How deep functions are nested in a tree: one that holds no other counts one. -/
def Expr.nesting : Expr → Nat
  | .number _ | .text _ | .variable _ => 0
  | .binary _ l r => max l.nesting r.nesting
  | .call _ arguments => Expr.nestingAll arguments
  | .function d => d.nesting

def Expr.nestingAll : List Expr → Nat
  | [] => 0
  | e :: es => max e.nesting (Expr.nestingAll es)

def Definition.nesting : Definition → Nat
  | ⟨_, _, body⟩ => Node.nestingAll body + 1

def Node.nesting : Node → Nat
  | .declare _ _ e | .ret e | .expr e => e.nesting

def Node.nestingAll : List Node → Nat
  | [] => 0
  | n :: ns => max n.nesting (Node.nestingAll ns)

end

def Value.nesting : Value → Nat
  | .function d => d.nesting
  | .number _ | .text _ | .builtin _ => 0

/-- How deep the functions are nested that a scope holds. -/
def Scope.nesting (s : Scope) : Nat :=
  s.bindings.foldr (fun b depth => max b.2.nesting depth) 0

/-- Outside the functions inside it, the body calls no parameter and no name that it declares. -/
def Definition.CallsDirectly (d : Definition) : Prop :=
  ∀ name, .callee name ∈ Node.occurrencesAll d.body →
    name ∉ d.parameters ∧ .declared name ∉ Node.occurrencesAll d.body

theorem Definition.nesting_eq (d : Definition) : d.nesting = Node.nestingAll d.body + 1 := by
  cases d
  rw [Definition.nesting]

mutual

theorem Expr.nesting_le {d : Definition} : ∀ e : Expr, .function d ∈ e.occurrences →
    d.nesting ≤ e.nesting
  | .number _, h | .text _, h | .variable _, h => by simp [Expr.occurrences] at h
  | .binary _ l r, h => by
    rw [Expr.nesting]
    rcases List.mem_append.mp h with h | h
    · exact Nat.le_trans (l.nesting_le h) (Nat.le_max_left _ _)
    · exact Nat.le_trans (r.nesting_le h) (Nat.le_max_right _ _)
  | .call _ arguments, h => by
    rw [Expr.nesting]
    exact Expr.nesting_le_all arguments (by simpa [Expr.occurrences] using h)
  | .function d', h => by
    have he : d = d' := by simpa [Expr.occurrences] using h
    exact Nat.le_of_eq (by rw [Expr.nesting, he])

theorem Expr.nesting_le_all {d : Definition} : ∀ es : List Expr,
    .function d ∈ Expr.occurrencesAll es → d.nesting ≤ Expr.nestingAll es
  | [], h => by simp [Expr.occurrencesAll] at h
  | e :: es, h => by
    rw [Expr.nestingAll]
    rcases List.mem_append.mp h with h | h
    · exact Nat.le_trans (e.nesting_le h) (Nat.le_max_left _ _)
    · exact Nat.le_trans (Expr.nesting_le_all es h) (Nat.le_max_right _ _)

end

theorem Node.nesting_le {d : Definition} {n : Node} (h : .function d ∈ n.occurrences) :
    d.nesting ≤ n.nesting := by
  cases n with
  | declare form name e => exact e.nesting_le (by simpa [Node.occurrences] using h)
  | ret e => exact e.nesting_le h
  | expr e => exact e.nesting_le h

theorem Node.nesting_le_all {d : Definition} {ns : List Node}
    (h : .function d ∈ Node.occurrencesAll ns) : d.nesting ≤ Node.nestingAll ns := by
  induction ns with
  | nil => cases h
  | cons n ns ih =>
    rw [Node.nestingAll]
    rcases List.mem_append.mp h with h | h
    · exact Nat.le_trans (Node.nesting_le h) (Nat.le_max_left _ _)
    · exact Nat.le_trans (ih h) (Nat.le_max_right _ _)

theorem Scope.nesting_le {s : Scope} {name : String} {v : Value} (h : s.get? name = some v) :
    v.nesting ≤ s.nesting := by
  have hm := Scope.mem_of_get? h
  unfold Scope.nesting
  generalize s.bindings = bindings at hm
  induction bindings with
  | nil => cases hm
  | cons b bs ih =>
    rw [List.foldr_cons]
    rcases List.mem_cons.mp hm with rfl | hm
    · exact Nat.le_max_left _ _
    · exact Nat.le_trans (ih hm) (Nat.le_max_right _ _)

/-- The function and those inside it call directly, and they are nested at most `depth` deep. -/
structure Definition.Within (depth : Nat) (d : Definition) : Prop where
  direct : ∀ d' ∈ d.definitions, d'.CallsDirectly
  nesting_le : d.nesting ≤ depth

def Value.Within (depth : Nat) (v : Value) : Prop :=
  ∀ d, v = .function d → d.Within depth

/-- A function inside a body is nested less deep. -/
theorem Definition.Within.inner {depth : Nat} {d inner : Definition}
    (h : d.Within (depth + 1)) (hi : .function inner ∈ Node.occurrencesAll d.body) :
    inner.Within depth := by
  refine ⟨fun d' hd => h.direct d' (Definition.definitions_subset hi hd), ?_⟩
  have hle := h.nesting_le
  have hi := Node.nesting_le_all hi
  rw [d.nesting_eq] at hle
  omega

theorem Value.Within.mono {depth depth' : Nat} {v : Value} (h : v.Within depth)
    (hle : depth ≤ depth') : v.Within depth' :=
  fun d hd => ⟨(h d hd).direct, Nat.le_trans (h d hd).nesting_le hle⟩

theorem Value.within_function {depth : Nat} {d : Definition} (h : d.Within depth) :
    (Value.function d).Within depth := by
  intro d' hd
  cases hd
  exact h

/-- Evaluation where values are nested at most `most` deep, and at most `depth` deep if they go by
a name that is not `held`. Only the latter are called, and each call has an outcome. -/
def nestingTo (most depth : Nat) (held : String → Prop) : Discipline where
  scope s := ∀ name v, s.get? name = some v →
    v.Within most ∧ (¬ held name → v.Within depth)
  value := Value.Within most
  callee := Value.Within depth
  error _ := True
  stuck := False

section

variable {most depth : Nat} {held : String → Prop} {call : Caller}
  {others : String → Option HostFunction}

theorem nestingTo_declare {name : String} {v : Value} (hv : v.Within most)
    (hd : ¬ held name → v.Within depth) (s : Scope) (hs : (nestingTo most depth held).scope s) :
    ResultIs (nestingTo most depth held).scope (nestingTo most depth held).error
      (s.declare name v) := by
  cases ht : s.declare name v with
  | error e => trivial
  | ok t => exact Scope.forall_of_declare hs ⟨hv, hd⟩ ht

theorem nestingTo_resolve {name : String} {good : Value → Prop} {s : Scope}
    (hs : ∀ v, s.get? name = some v → good v) (hb : good (.builtin name)) :
    ResultIs good (nestingTo most depth held).error
      ((Host.standardWith others).resolve s name) := by
  unfold Host.resolve
  cases hg : s.get? name with
  | some v => exact hs v hg
  | none =>
    dsimp only
    split
    · exact hb
    · trivial

/-- Nodes that call no held name, declare held ones only and hold functions of lesser depth. -/
theorem nestingTo_admits {ns : List Node} (hle : depth ≤ most)
    (hc : ∀ name, .callee name ∈ Node.occurrencesAll ns → ¬ held name)
    (hd : ∀ name, .declared name ∈ Node.occurrencesAll ns → ¬ held name → most ≤ depth)
    (hf : ∀ d, .function d ∈ Node.occurrencesAll ns → d.Within depth) :
    ∀ o ∈ Node.occurrencesAll ns,
      (nestingTo most depth held).Admits (.standardWith others) o := by
  intro o ho
  match o, ho with
  | .variable name, _ =>
    intro s hs
    exact nestingTo_resolve (fun v hv => (hs name v hv).1) (fun d hd => by cases hd)
  | .callee name, ho =>
    intro s hs
    exact nestingTo_resolve (fun v hv => (hs name v hv).2 (hc name ho)) (fun d hd => by cases hd)
  | .declared name, ho =>
    exact fun s v hs hv => nestingTo_declare hv (fun hn => hv.mono (hd name ho hn)) s hs
  | .function d, ho =>
    have hv := Value.within_function (hf d ho)
    exact ⟨hv.mono hle, nestingTo_declare (hv.mono hle) fun _ => hv⟩

/-- A builtin that gives no function nested deeper, or calling less directly, than those it is given
may be. -/
def HostFunction.Within (most : Nat) (f : HostFunction) : Prop :=
  ∀ arguments sink v, (∀ a ∈ arguments, a.Within most) →
    (f arguments sink).1 = .ok (some v) → v.Within most

theorem HostFunction.Within.allowed {f : HostFunction} (h : f.Within most) :
    (nestingTo most depth held).Allows f := by
  intro arguments sink ha
  cases hr : (f arguments sink).1 with
  | error e => trivial
  | ok answer =>
    rintro v ⟨rfl⟩
    exact h arguments sink v ha hr

/-- Calls of functions that are nested at most `depth` deep have an outcome. -/
def Caller.Total (most depth : Nat) (call : Caller) : Prop :=
  ∀ d arguments sink, d.Within depth → (∀ a ∈ arguments, a.Within most) →
    (nestingTo most 0 fun _ => False).Answers (call d arguments sink)

theorem Caller.Total.rules (hc : call.Total most depth)
    (hothers : ∀ b f, others b = some f → f.Within most) (held : String → Prop) :
    (nestingTo most depth held).Rules (.standardWith others) call := by
  refine Discipline.Rules.standardWith ?_ ?_ ?_ ?_ fun b f hf => (hothers b f hf).allowed
  · intro n _ d hd
    cases hd
  · intro content d hd
    cases hd
  · intro e _
    trivial
  · intro d arguments sink hd ha
    exact hc d arguments sink (hd d rfl) ha

end

/-- To carry out a call it is enough to let calls nest as deep as the function is nested. -/
theorem callWithin_total {most depth : Nat} {others : String → Option HostFunction}
    (hothers : ∀ b f, others b = some f → f.Within most) (hle : depth ≤ most) :
    (callWithin (.standardWith others) depth).Total most depth := by
  induction depth with
  | zero =>
    intro d arguments sink hd _
    have := hd.nesting_le
    rw [d.nesting_eq] at this
    omega
  | succ depth ih =>
    intro d arguments sink hd ha
    have hdirect := hd.direct d d.mem_definitions_self
    -- what a parameter or a declaration holds can be nested deeper, but it is not called
    have rules := (ih (by omega)).rules hothers fun name =>
      name ∈ d.parameters ∨ .declared name ∈ Node.occurrencesAll d.body
    have hb := Discipline.evalNodes_keeps rules d.body
      (nestingTo_admits (by omega)
        (fun name hc hheld => hheld.elim (hdirect name hc).1 (hdirect name hc).2)
        (fun name hn hheld => absurd (.inr hn) hheld) fun inner hi => hd.inner hi)
      none (by simp)
    refine Discipline.answers_callBody ?_
      (hb.mono (fun _ h => h) (fun _ _ h => h.2) fun _ _ h => h.2) sink
    cases hf : Scope.frame d arguments with
    | error e => trivial
    | ok s =>
      intro name v hv
      obtain ⟨hp, hm⟩ := Scope.mem_of_get?_frame hf hv
      exact ⟨ha v hm, fun hheld => absurd (.inl hp) hheld⟩

/-- A program in which no body calls a name that holds a value ends, and calls nest at most as
deep as functions are nested, in it or in the scope: with that depth or any greater one, there is
one outcome. The functions of the scope have to keep to the same, and so have those that are given
by a builtin which only a scope can hold. -/
theorem evalProgram_total {p : Program} (hp : ∀ d ∈ Node.definitionsAll p, d.CallsDirectly)
    {env : Scope}
    (henv : ∀ name d, env.get? name = some (.function d) → ∀ d' ∈ d.definitions, d'.CallsDirectly)
    {others : String → Option HostFunction}
    (hothers : ∀ b f, others b = some f → f.Within (max (Node.nestingAll p) env.nesting))
    (sink : Sink) :
    ∃ r, ∀ depth, max (Node.nestingAll p) env.nesting ≤ depth →
      (evalProgram (.standardWith others) depth p).on ⟨env, sink⟩ = some r := by
  generalize hmost : max (Node.nestingAll p) env.nesting = most at hothers ⊢
  have hfunctions : ∀ d, .function d ∈ Node.occurrencesAll p → d.Within most := by
    intro d ho
    refine ⟨fun d' hd => hp d' ((Node.mem_definitionsAll_iff p).mpr ⟨d, ho, hd⟩), ?_⟩
    have := Node.nesting_le_all ho
    omega
  have hscope : ∀ name v, env.get? name = some v → v.Within most := by
    rintro name v hv d rfl
    refine ⟨henv name d hv, ?_⟩
    have : d.nesting ≤ env.nesting := Scope.nesting_le hv
    omega
  have rules := (callWithin_total hothers (Nat.le_refl most)).rules hothers fun _ => False
  have hn := Discipline.evalNodes_keeps rules p
    (nestingTo_admits (Nat.le_refl most) (fun _ _ => id) (fun _ _ _ => Nat.le_refl most)
      hfunctions) none (by simp)
  have hkeeps : (nestingTo most most fun _ => False).Keeps
      (evalProgram (.standardWith others) most p) fun _ => True :=
    hn.bind fun _ _ => .pure trivial
  have ho := hkeeps ⟨env, sink⟩ fun name v hv => ⟨hscope name v hv, fun _ => hscope name v hv⟩
  cases hr : (evalProgram (.standardWith others) most p).on ⟨env, sink⟩ with
  | none =>
    rw [hr] at ho
    exact ho.elim
  | some r => exact ⟨r, fun depth hle => evalProgram_below _ hle p _ _ hr⟩

/-- A function from the scope goes through two calls and then through a builtin of the scope. -/
theorem evalProgram_total_pass :
    ∃ r, ∀ depth, 2 ≤ depth →
      (evalProgram
        (.standardWith
          (onlyBuiltin "pick" (giving (.function ⟨"id", ["x"], [.ret (.variable "x")]⟩))))
        depth
        [.expr (.function ⟨"f", ["x"],
          [.expr (.function ⟨"g", ["y"], [.ret (.variable "y")]⟩),
            .ret (.call "g" [.variable "x"])]⟩),
          .expr (.call "pick" [.call "f" [.variable "id"]])]).on
        ⟨⟨[("id", .function ⟨"id", ["x"], [.ret (.variable "x")]⟩), ("pick", .builtin "pick")],
          by decide⟩, .unlimited⟩ =
      some r := by
  have hid : ∀ d' ∈ Definition.definitions ⟨"id", ["x"], [.ret (.variable "x")]⟩,
      d'.CallsDirectly := by
    simp [Definition.definitions, Node.definitionsAll, Node.definitions, Expr.definitions,
      Definition.CallsDirectly, Node.occurrencesAll, Node.occurrences, Expr.occurrences]
  have hp : ∀ d ∈ Node.definitionsAll
      [.expr (.function ⟨"f", ["x"],
        [.expr (.function ⟨"g", ["y"], [.ret (.variable "y")]⟩),
          .ret (.call "g" [.variable "x"])]⟩),
        .expr (.call "pick" [.call "f" [.variable "id"]])], d.CallsDirectly := by
    simp [Node.definitionsAll, Node.definitions, Expr.definitions, Expr.definitionsAll,
      Definition.definitions, Definition.CallsDirectly, Node.occurrencesAll, Node.occurrences,
      Expr.occurrences, Expr.occurrencesAll]
  have henv : ∀ name d,
      Scope.get? ⟨[("id", .function ⟨"id", ["x"], [.ret (.variable "x")]⟩),
        ("pick", .builtin "pick")], by decide⟩ name =
        some (.function d) → ∀ d' ∈ d.definitions, d'.CallsDirectly := by
    intro name d hg
    have hm := Scope.mem_of_get? hg
    simp only [List.mem_cons, List.not_mem_nil, Prod.mk.injEq, Value.function.injEq, reduceCtorEq,
      and_false, or_false] at hm
    rw [hm.2]
    exact hid
  have hpick : ∀ b f, onlyBuiltin "pick" (giving (.function ⟨"id", ["x"], [.ret (.variable "x")]⟩))
      b = some f → f.Within 2 := by
    intro b f hf
    refine of_onlyBuiltin (fun arguments sink v _ hv => ?_) hf
    cases hv
    exact Value.within_function ⟨hid, by decide⟩
  exact evalProgram_total hp henv hpick .unlimited

/-- Calls its parameter with itself. -/
def selfCalling : Definition :=
  ⟨"loop", ["f"], [.ret (.call "f" [.variable "f"])]⟩

/-- Once it is called with itself, it is called with itself again. -/
theorem on_call_selfCalling (host : Host) {call : Caller} (name : String) {s : Scope} {sink : Sink}
    (hs : s.get? name = some (.function selfCalling))
    (hc : call selfCalling [.function selfCalling] sink = none) :
    (callWith host call name (evalAll host call [.variable name])).on ⟨s, sink⟩ = none := by
  have hr : host.resolve s name = .ok (.function selfCalling) := by
    rw [Host.resolve, hs]
  rw [callWith, Eval.on_bind, Eval.on_lookup, hr]
  simp only [evalAll, evalExpr, Eval.on_bind, Eval.on_lookup, hr, Eval.on_pure, Eval.invoke,
    Eval.on_onSink, hc, Option.map_none]

theorem callWithin_selfCalling (host : Host) (depth : Nat) (sink : Sink) :
    callWithin host depth selfCalling [.function selfCalling] sink = none := by
  induction depth with
  | zero => rfl
  | succ depth ih =>
    have hf : Scope.frame selfCalling [.function selfCalling] =
        .ok ⟨[("f", .function selfCalling)], by decide⟩ := rfl
    have hb : selfCalling.body = [.ret (.call "f" [.variable "f"])] := rfl
    have hcall := on_call_selfCalling host "f"
      (s := ⟨[("f", .function selfCalling)], by decide⟩) rfl ih
    rw [callWithin, callBody, hf]
    dsimp only
    simp only [hb, evalNodes, evalNode, evalExpr, Eval.on_bind, hcall, Option.map_none]

/-- A builtin that only the scope holds can give a function that is called for ever, though the
program defines none and the scope holds none. -/
theorem no_outcome_of_given_function :
    (∃ ts, parse ts =
      .ok [.declare .mutable "m" (.call "b" []), .expr (.call "m" [.variable "m"])]) ∧
    Node.definitionsAll [.declare .mutable "m" (.call "b" []), .expr (.call "m" [.variable "m"])] =
      [] ∧
    (∀ name d, (Scope.holding "b" "make").get? name ≠ some (.function d)) ∧
    ∀ r, ¬ EvaluatesTo (.standardWith (onlyBuiltin "make" (giving (.function selfCalling))))
      [.declare .mutable "m" (.call "b" []), .expr (.call "m" [.variable "m"])]
      ⟨.holding "b" "make", .unlimited⟩ r := by
  have hmake : (Expr.call "b" []).Written := .call rfl (by simp)
  have hloop : (Expr.call "m" [.variable "m"]).Written := .call rfl (by simpa using .name rfl)
  have hp : Derives _ [.declare .mutable "m" (.call "b" []),
      .expr (.call "m" [.variable "m"])] :=
    .unit (.declare .mutable rfl (parseExpr_flat hmake)) (.last (.expr (parseExpr_flat hloop)))
  refine ⟨⟨_, hp.parse⟩, rfl, ?_, ?_⟩
  · intro name d hg
    cases Scope.eq_of_get?_holding hg
  · rintro r ⟨depth, hr⟩
    generalize hhost : Host.standardWith (onlyBuiltin "make" (giving (.function selfCalling))) =
      host at hr
    have hdeclare :
        (evalNode host (callWithin host depth) (.declare .mutable "m" (.call "b" []))).on
          ⟨.holding "b" "make", .unlimited⟩ =
        some (.ok (.finished none),
          ⟨⟨[("m", .function selfCalling), ("b", .builtin "make")], by decide⟩, .unlimited⟩) := by
      rw [← hhost]
      rfl
    have hcall := on_call_selfCalling host "m"
      (s := ⟨[("m", .function selfCalling), ("b", .builtin "make")], by decide⟩) rfl
      (callWithin_selfCalling host depth .unlimited)
    rw [evalProgram, Eval.on_bind, evalNodes, Eval.on_bind, hdeclare] at hr
    simp only [evalNodes, evalNode, Eval.on_bind, hcall, reduceCtorEq] at hr

end TinyScript
