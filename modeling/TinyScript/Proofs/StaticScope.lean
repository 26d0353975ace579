import TinyScript.Proofs.Discipline

/-!
Scopes checked before the run. Which names are visible where can be read off a program, since a
body sees its parameters and what it binds itself. A program in which every name is found in this
way never comes upon one that is not bound; and if no name is bound twice either, no binding fails.
-/

namespace TinyScript

/-- Whether each node finds the names that it looks up: among those visible at the start, those
bound by the nodes before it, or the builtins. -/
def Host.finds (host : Host) : List String → List Node → Bool
  | _, [] => true
  | visible, n :: ns =>
    (n.occurrences.filterMap Occurrence.lookup?).all
        (fun name => visible.contains name || host.names.contains name) &&
      host.finds (n.binds?.toList ++ visible) ns

/-- The nodes find their names, starting with those visible, and the body of every function inside
them finds its own, starting with the parameters. -/
structure Host.WellScoped (host : Host) (visible : List String) (ns : List Node) : Prop where
  nodes : host.finds visible ns = true
  bodies : ∀ d ∈ Node.definitionsAll ns, host.finds d.parameters d.body = true

/-- Neither two parameters nor two nodes of the body, nor one and the other, have the same name. -/
def Definition.Distinct (d : Definition) : Prop :=
  (d.parameters ++ d.body.filterMap Node.binds?).Nodup

instance (d : Definition) : Decidable d.Distinct :=
  inferInstanceAs (Decidable (List.Nodup _))

/-- A function that can be called without coming upon a name that is not bound or, if `strict`
holds, upon one that is bound already. -/
structure Definition.Sound (strict : Prop) (d : Definition) : Prop where
  parsed : d.Parsed
  finds : ∀ d' ∈ d.definitions, Host.standard.finds d'.parameters d'.body = true
  distinct : strict → ∀ d' ∈ d.definitions, d'.Distinct

def Value.Sound (strict : Prop) (v : Value) : Prop :=
  ∀ d, v = .function d → d.Sound strict

theorem Definition.Sound.inner {strict : Prop} {d inner : Definition} (h : d.Sound strict)
    (hi : .function inner ∈ Node.occurrencesAll d.body) : inner.Sound strict where
  parsed := h.parsed.inner hi
  finds d' hd := h.finds d' (Definition.definitions_subset hi hd)
  distinct hs d' hd := h.distinct hs d' (Definition.definitions_subset hi hd)

/-- The scope binds the visible names and no others, all of them to sound values. -/
structure Scope.Models (strict : Prop) (visible : List String) (s : Scope) : Prop where
  names : ∀ name, s.contains name = true ↔ name ∈ visible
  values : ∀ name v, s.get? name = some v → v.Sound strict

/-- Evaluation where the scope is known. -/
def scoping (strict : Prop) (visible : List String) : Discipline where
  scope := Scope.Models strict visible
  value := Value.Sound strict
  callee := Value.Sound strict
  error e := (∀ name, e ≠ .unbound name) ∧ (strict → ∀ name, e ≠ .alreadyBound name)
  stuck := True

section

variable {strict : Prop} {visible : List String} {call : Caller}
  {others : String → Option HostFunction}

theorem Scope.Models.declare {s t : Scope} {name : String} {v : Value}
    (h : s.Models strict visible) (hv : v.Sound strict) (hd : s.declare name v = .ok t) :
    t.Models strict (name :: visible) := by
  constructor
  · intro other
    rw [Scope.contains, Scope.get?_of_declare hd, List.mem_cons, ← h.names other]
    by_cases ho : other = name
    · simp [ho]
    · simp [ho, Scope.contains]
  · exact Scope.forall_of_declare h.values hv hd

/-- A name that is not visible can be bound, and is visible then. -/
theorem Scope.Models.declare_result {s : Scope} (h : s.Models strict visible) {name : String}
    (hn : strict → name ∉ visible) {v : Value} (hv : v.Sound strict) :
    ResultIs (Scope.Models strict (name :: visible)) (scoping strict visible).error
      (s.declare name v) := by
  cases hc : s.contains name with
  | true =>
    rw [Scope.declare_of_contains hc]
    exact ⟨by simp, fun hs => absurd ((h.names name).mp hc) (hn hs)⟩
  | false =>
    obtain ⟨t, hd, _⟩ := Scope.declare_of_not_contains hc v
    rw [hd]
    exact h.declare hv hd

theorem Scope.Models.resolve_result {s : Scope} (h : s.Models strict visible) {name : String}
    (hn : name ∈ visible ∨ name ∈ Host.standard.names) :
    ResultIs (Value.Sound strict) (scoping strict visible).error
      ((Host.standardWith others).resolve s name) := by
  unfold Host.resolve
  cases hg : s.get? name with
  | some v => exact h.values name v hg
  | none =>
    have hb : name ∈ (Host.standardWith others).names := by
      refine hn.resolve_left fun hv => ?_
      have hc := (h.names name).mpr hv
      rw [Scope.contains, hg] at hc
      cases hc
    rw [if_pos (by simpa using hb)]
    intro d hd
    cases hd

/-- The frame of a call binds the parameters. -/
theorem Definition.Sound.frame_result {d : Definition} (h : d.Sound strict)
    {arguments : List Value} (ha : ∀ a ∈ arguments, a.Sound strict) :
    ResultIs (Scope.Models strict d.parameters) (scoping strict []).error
      (Scope.frame d arguments) := by
  cases hf : Scope.frame d arguments with
  | ok s =>
    exact ⟨fun name => Scope.contains_frame_iff hf,
      fun name v hv => ha v (Scope.mem_of_get?_frame hf hv).2⟩
  | error e =>
    rcases Scope.frame_eq_error hf with rfl | ⟨⟨name, rfl⟩, hn⟩
    · exact ⟨by simp, by simp⟩
    · refine ⟨by simp, fun hs => absurd ?_ hn⟩
      exact (List.nodup_append.mp (h.distinct hs d d.mem_definitions_self)).1

/-- A builtin that gives sound values for sound ones, and fails over no name. -/
def HostFunction.Sound (strict : Prop) (f : HostFunction) : Prop :=
  ∀ arguments sink, (∀ a ∈ arguments, a.Sound strict) →
    ResultIs (fun answer => ∀ v ∈ answer, v.Sound strict) (scoping strict []).error
      (f arguments sink).1

/-- Calls of sound functions are sound. -/
def Caller.Sound (strict : Prop) (call : Caller) : Prop :=
  ∀ d arguments sink, d.Sound strict → (∀ a ∈ arguments, a.Sound strict) →
    (scoping strict []).Answers (call d arguments sink)

theorem Caller.Sound.rules (hc : call.Sound strict)
    (hothers : ∀ b f, others b = some f → f.Sound strict) (visible : List String) :
    (scoping strict visible).Rules (.standardWith others) call := by
  refine Discipline.Rules.standardWith ?_ ?_ ?_ ?_ hothers
  · intro n _ d hd
    cases hd
  · intro content d hd
    cases hd
  · intro e he
    constructor
    · rintro name rfl
      cases he
    · rintro _ name rfl
      cases he
  · intro d arguments sink hd ha
    exact hc d arguments sink (hd d rfl) ha

theorem scoping_admits {o : Occurrence} {name : String} (ho : o.lookup? = some name)
    (hn : name ∈ visible ∨ name ∈ Host.standard.names) :
    (scoping strict visible).Admits (.standardWith others) o := by
  rcases Occurrence.lookup?_eq_some_iff.mp ho with rfl | rfl
  · exact fun s hs => hs.resolve_result hn
  · exact fun s hs => hs.resolve_result hn

/-- A node that finds its names adds the name it binds, and does no more to the scope. -/
theorem evalNode_scoping (hc : call.Sound strict)
    (hothers : ∀ b f, others b = some f → f.Sound strict) {n : Node} (hp : n.Plain)
    (hn : ∀ name ∈ n.occurrences.filterMap Occurrence.lookup?,
      name ∈ visible ∨ name ∈ Host.standard.names)
    (hf : ∀ d, .function d ∈ n.occurrences → d.Sound strict)
    (hb : strict → ∀ name ∈ n.binds?, name ∉ visible) :
    Eval.Ensures True (Scope.Models strict visible) (evalNode (.standardWith others) call n)
      (fun c s => s.Models strict (n.binds?.toList ++ visible) ∧ ∀ v ∈ c.result, v.Sound strict)
      (fun e _ => (scoping strict visible).error e) := by
  have hl : ∀ o ∈ n.occurrences, ∀ name, o.lookup? = some name →
      (scoping strict visible).Admits (.standardWith others) o :=
    fun o ho name hname => scoping_admits hname (hn name (List.mem_filterMap.mpr ⟨o, ho, hname⟩))
  have hv : ∀ d, .function d ∈ n.occurrences → Value.Sound strict (.function d) := by
    rintro d hd d' ⟨rfl⟩
    exact hf d hd
  have hbound : ∀ name ∈ n.binds?, ∀ s v, Scope.Models strict visible s → v.Sound strict →
      ResultIs (Scope.Models strict (name :: visible)) (scoping strict visible).error
        (s.declare name v) :=
    fun name hm s v hs hv => hs.declare_result (fun hst => hb hst name hm) hv
  refine (Discipline.evalNode_ensures (hc.rules hothers visible) hp hl hv hbound).mono
    (fun _ hs => hs) ?_ fun _ _ h => h.2
  rintro c s ⟨hs, hr⟩
  refine ⟨?_, hr⟩
  cases hm : n.binds? <;> rw [hm] at hs <;> exact hs

/-- Nodes that find their names end with a sound value or an error that is not about names. -/
theorem evalNodes_scoping (hc : call.Sound strict)
    (hothers : ∀ b f, others b = some f → f.Sound strict) {ns : List Node} (hp : ∀ n ∈ ns, n.Plain)
    (hn : Host.standard.finds visible ns = true)
    (hf : ∀ d, .function d ∈ Node.occurrencesAll ns → d.Sound strict)
    (hb : strict → (visible ++ ns.filterMap Node.binds?).Nodup) (last : Option Value)
    (hl : ∀ v ∈ last, v.Sound strict) :
    Eval.Ensures True (Scope.Models strict visible) (evalNodes (.standardWith others) call last ns)
      (fun c _ => ∀ v ∈ c.result, v.Sound strict)
      (fun e _ => (scoping strict visible).error e) := by
  induction ns generalizing visible last with
  | nil => exact .pure fun _ _ => hl
  | cons n ns ih =>
    simp only [Host.finds, Bool.and_eq_true, List.all_eq_true, Bool.or_eq_true,
      List.contains_iff_mem] at hn
    obtain ⟨hnames, hrest⟩ := hn
    have hfresh : strict → ∀ name ∈ n.binds?, name ∉ visible := by
      intro hs name hm hv
      have hd := (List.nodup_append.mp (hb hs)).2.2 name hv name
      simp [Option.mem_def.mp hm] at hd
    have hnodup : strict → ((n.binds?.toList ++ visible) ++ ns.filterMap Node.binds?).Nodup := by
      intro hs
      have hd := hb hs
      cases hm : n.binds? with
      | none => simpa [hm] using hd
      | some name =>
        rw [List.filterMap_cons_some hm] at hd
        exact List.perm_middle.nodup_iff.mp hd
    simp only [Node.occurrencesAll, List.flatMap_cons, List.mem_append] at hf
    refine (evalNode_scoping hc hothers (hp n (by simp)) hnames (fun d hd => hf d (.inl hd))
      hfresh).bind ?_
    rintro (last' | v)
    · refine .assume fun hl' => ?_
      exact ih (fun n hm => hp n (by simp [hm])) hrest (fun d hd => hf d (.inr hd)) hnodup
        last' hl'
    · exact .pure fun _ h => h.2

end

/-- Sound functions are called soundly, however deep calls may nest. -/
theorem callWithin_sound {strict : Prop} {others : String → Option HostFunction}
    (hothers : ∀ b f, others b = some f → f.Sound strict) (depth : Nat) :
    (callWithin (.standardWith others) depth).Sound strict := by
  induction depth with
  | zero => exact fun _ _ _ _ _ => trivial
  | succ depth ih =>
    intro d arguments sink hd ha
    obtain ⟨ts, hbody⟩ := hd.parsed.body
    have hb := evalNodes_scoping ih hothers (derives_of_parse hbody).plain
      (hd.finds d d.mem_definitions_self) (fun inner hi => hd.inner hi)
      (fun hs => hd.distinct hs d d.mem_definitions_self) none (by simp)
    exact Discipline.answers_callBody (hd.frame_result ha) hb sink

/-- The names that a scope binds. -/
def Scope.names (s : Scope) : List String :=
  s.bindings.map Prod.fst

/-- What a program can meet when it starts in the scope `env`. -/
theorem evalProgram_scoping {strict : Prop} {others : String → Option HostFunction}
    (hothers : ∀ b f, others b = some f → f.Sound strict) {ts : List Token} {p : Program}
    (hp : parse ts = .ok p) {env : Scope} (hw : Host.standard.WellScoped env.names p)
    (hd : strict → ∀ d ∈ Node.definitionsAll p, d.Distinct)
    (hb : strict → (env.names ++ p.filterMap Node.binds?).Nodup)
    (henv : ∀ name d, env.get? name = some (.function d) → d.Sound strict) (depth : Nat) :
    Eval.Ensures True (· = env) (evalProgram (.standardWith others) depth p) (fun _ _ => True)
      (fun e _ => (scoping strict []).error e) := by
  have hf : ∀ d, .function d ∈ Node.occurrencesAll p → d.Sound strict := by
    intro d ho
    have hsub : ∀ d' ∈ d.definitions, d' ∈ Node.definitionsAll p :=
      fun d' hd' => (Node.mem_definitionsAll_iff p).mpr ⟨d, ho, hd'⟩
    exact ⟨⟨ts, p, hp, hsub d d.mem_definitions_self⟩, fun d' hd' => hw.bodies d' (hsub d' hd'),
      fun hs d' hd' => hd hs d' (hsub d' hd')⟩
  have hmodels : env.Models strict env.names :=
    ⟨fun _ => Scope.mem_keys_iff.symm, fun name v hv d he => henv name d (he ▸ hv)⟩
  have hn := evalNodes_scoping (callWithin_sound hothers depth) hothers
    (derives_of_parse hp).plain hw.nodes hf hb none (by simp)
  refine (hn.mono ?_ (fun _ _ _ => trivial) fun _ _ h => h).bind fun c => .pure fun _ h => h
  rintro s rfl
  exact hmodels

/-- Where names are found by reading the program, they are found when it runs. If the program and
the bodies of the functions in the scope find their names, no run ends for want of a name; and if
no two names of a body or of the top level are the same either, none ends over a name that is
bound already. The builtins that only a scope can hold have to keep to the same. -/
theorem evalProgram_wellScoped {others : String → Option HostFunction}
    (hothers : ∀ b f, others b = some f → f.Sound False) {ts : List Token} {p : Program}
    (hp : parse ts = .ok p) {env : Scope} (hw : Host.standard.WellScoped env.names p)
    (henv : ∀ name d, env.get? name = some (.function d) →
      d.Parsed ∧ Host.standard.WellScoped d.parameters d.body) (sink : Sink) :
    (∀ r m, EvaluatesTo (.standardWith others) p ⟨env, sink⟩ (r, m) →
      ∀ name, r ≠ .error (.unbound name)) ∧
    ((∀ b f, others b = some f → f.Sound True) →
      (∀ d ∈ Node.definitionsAll p, d.Distinct) →
      (env.names ++ p.filterMap Node.binds?).Nodup →
      (∀ name d, env.get? name = some (.function d) → ∀ d' ∈ d.definitions, d'.Distinct) →
      ∀ r m, EvaluatesTo (.standardWith others) p ⟨env, sink⟩ (r, m) →
        ∀ name, r ≠ .error (.alreadyBound name)) := by
  have hfinds : ∀ name d, env.get? name = some (.function d) →
      ∀ d' ∈ d.definitions, Host.standard.finds d'.parameters d'.body = true := by
    intro name d hg d' hd'
    obtain ⟨_, hw'⟩ := henv name d hg
    rw [d.definitions_eq] at hd'
    rcases List.mem_cons.mp hd' with rfl | hd'
    · exact hw'.nodes
    · exact hw'.bodies d' hd'
  constructor
  · rintro r m ⟨depth, hr⟩ name rfl
    have h := evalProgram_scoping hothers hp hw False.elim False.elim
      (fun name d hg => ⟨(henv name d hg).1, hfinds name d hg, False.elim⟩) depth ⟨env, sink⟩ rfl
    rw [hr] at h
    exact h.1 name rfl
  · rintro hstrict hd hb hdenv r m ⟨depth, hr⟩ name rfl
    have h := evalProgram_scoping hstrict hp hw (fun _ => hd) (fun _ => hb)
      (fun name d hg => ⟨(henv name d hg).1, hfinds name d hg, fun _ => hdenv name d hg⟩) depth
      ⟨env, sink⟩ rfl
    rw [hr] at h
    exact h.2 trivial name rfl

/-- A scope that holds a function and a builtin. -/
def Scope.withIncrement : Scope :=
  ⟨[("inc", .function ⟨"inc", ["n"], [.ret (.binary .add (.variable "n") (.number "1"))]⟩),
    ("answer", .builtin "answer")], by decide⟩

theorem Scope.eq_of_get?_withIncrement {name : String} {d : Definition}
    (h : Scope.withIncrement.get? name = some (.function d)) :
    d = ⟨"inc", ["n"], [.ret (.binary .add (.variable "n") (.number "1"))]⟩ := by
  have hm := Scope.mem_of_get? h
  simp only [Scope.withIncrement, List.mem_cons, List.not_mem_nil, Prod.mk.injEq,
    Value.function.injEq, reduceCtorEq, and_false, or_false] at hm
  exact hm.2

/-- A function that calls its parameter is given one that the scope holds, and what a builtin of the
scope gives. -/
theorem evalProgram_wellScoped_apply :
    (¬ ∃ name m, EvaluatesTo (.standardWith (onlyBuiltin "answer" (giving (.number 42))))
      [.expr (.function ⟨"apply", ["f", "x"], [.ret (.call "f" [.variable "x"])]⟩),
        .expr (.call "apply" [.variable "inc", .call "answer" []])]
      ⟨.withIncrement, .unlimited⟩ (.error (.unbound name), m)) ∧
    ¬ ∃ name m, EvaluatesTo (.standardWith (onlyBuiltin "answer" (giving (.number 42))))
      [.expr (.function ⟨"apply", ["f", "x"], [.ret (.call "f" [.variable "x"])]⟩),
        .expr (.call "apply" [.variable "inc", .call "answer" []])]
      ⟨.withIncrement, .unlimited⟩ (.error (.alreadyBound name), m) := by
  have hanswer (strict : Prop) : ∀ b f, onlyBuiltin "answer" (giving (.number 42)) b = some f →
      f.Sound strict := by
    intro b f hf
    have hnumber : (Value.number 42).Sound strict := fun d hd => by cases hd
    exact of_onlyBuiltin (Discipline.giving_allowed (D := scoping strict []) hnumber) hf
  have hsum : (Expr.binary .add (.variable "n") (.number "1")).Written :=
    .binary .add (.name rfl) rfl (.number rfl)
  have hinner : (Expr.call "f" [.variable "x"]).Written := .call rfl (by simpa using .name rfl)
  have houter : (Expr.call "apply" [.variable "inc", .call "answer" []]).Written :=
    .call rfl (by simpa using ⟨.name rfl, .call rfl (by simp)⟩)
  have hinc : Derives _ [.expr (.function ⟨"inc", ["n"], [.ret _]⟩)] :=
    .function rfl (by decide) (.last (.ret (parseExpr_flat hsum))) .nil
  have hp : Derives _ [.expr (.function ⟨"apply", ["f", "x"], [.ret _]⟩), .expr _] :=
    .function rfl (by decide) (.last (.ret (parseExpr_flat hinner)))
      (.last (.expr (parseExpr_flat houter)))
  have hw : Host.standard.WellScoped Scope.withIncrement.names
      [.expr (.function ⟨"apply", ["f", "x"], [.ret (.call "f" [.variable "x"])]⟩),
        .expr (.call "apply" [.variable "inc", .call "answer" []])] := ⟨by decide, by decide⟩
  have h := evalProgram_wellScoped (hanswer False) hp.parse hw
    (fun name d hg => by
      cases Scope.eq_of_get?_withIncrement hg
      exact ⟨⟨_, _, hinc.parse, List.mem_cons_self⟩, by decide, by decide⟩) .unlimited
  constructor
  · rintro ⟨name, m, hr⟩
    exact h.1 _ m hr name rfl
  · rintro ⟨name, m, hr⟩
    refine h.2 (hanswer True) (by decide) (by decide) (fun name d hg => ?_) _ m hr name rfl
    cases Scope.eq_of_get?_withIncrement hg
    decide

/-- A builtin that only the scope holds can give a function whose body comes upon a name that is not
bound, though the program finds all its names and the scope holds no function. -/
theorem unbound_of_given_function :
    (∃ ts, parse ts = .ok [.declare .mutable "m" (.call "b" []), .expr (.call "m" [])]) ∧
    Host.standard.WellScoped (Scope.holding "b" "make").names
      [.declare .mutable "m" (.call "b" []), .expr (.call "m" [])] ∧
    (∀ name d, (Scope.holding "b" "make").get? name ≠ some (.function d)) ∧
    ∃ m, EvaluatesTo
      (.standardWith (onlyBuiltin "make" (giving (.function ⟨"m", [], [.ret (.variable "zzz")]⟩))))
      [.declare .mutable "m" (.call "b" []), .expr (.call "m" [])]
      ⟨.holding "b" "make", .unlimited⟩ (.error (.unbound "zzz"), m) := by
  have hmake : (Expr.call "b" []).Written := .call rfl (by simp)
  have hcall : (Expr.call "m" []).Written := .call rfl (by simp)
  have hp : Derives _ [.declare .mutable "m" (.call "b" []), .expr (.call "m" [])] :=
    .unit (.declare .mutable rfl (parseExpr_flat hmake)) (.last (.expr (parseExpr_flat hcall)))
  refine ⟨⟨_, hp.parse⟩, ⟨by decide, by decide⟩, ?_, _, 1, rfl⟩
  intro name d hg
  cases Scope.eq_of_get?_holding hg

end TinyScript
