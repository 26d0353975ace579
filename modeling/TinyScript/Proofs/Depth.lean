import TinyScript.Run

/-!
The bound on nested calls. It decides only whether there is an outcome: one that is reached within
some depth is reached within every greater one, so a run has at most one outcome.
-/

namespace TinyScript

/-- Where `x` has an outcome, `y` has the same. -/
def Eval.Below {α : Type} (x y : Eval α) : Prop :=
  ∀ m r, x.on m = some r → y.on m = some r

/-- The calls that `call` carries out are carried out by `call'` with the same outcome. -/
def Caller.Below (call call' : Caller) : Prop :=
  ∀ d arguments sink r, call d arguments sink = some r → call' d arguments sink = some r

namespace Eval.Below

variable {α β : Type}

theorem refl (x : Eval α) : Eval.Below x x :=
  fun _ _ h => h

theorem bind {x y : Eval α} {f g : α → Eval β} (hx : Eval.Below x y)
    (hf : ∀ a, Eval.Below (f a) (g a)) : Eval.Below (x >>= f) (y >>= g) := by
  intro m r h
  rw [Eval.on_bind] at h ⊢
  cases ho : x.on m with
  | none =>
    rw [ho] at h
    cases h
  | some outcome =>
    obtain ⟨result, m'⟩ := outcome
    rw [hx m _ ho]
    rw [ho] at h
    cases result with
    | error e => exact h
    | ok a => exact hf a m' r h

theorem onSink {f g : Sink → Option (Except EvalError α × Sink)}
    (h : ∀ sink r, f sink = some r → g sink = some r) :
    Eval.Below (Eval.onSink f) (Eval.onSink g) := by
  intro m r hr
  rw [Eval.on_onSink] at hr ⊢
  obtain ⟨outcome, hf, hr⟩ := Option.map_eq_some_iff.mp hr
  exact Option.map_eq_some_iff.mpr ⟨outcome, h _ _ hf, hr⟩

end Eval.Below

section

variable {host : Host} {call call' : Caller}

theorem invoke_below (hc : call.Below call') (name : String) (callee : Value)
    (arguments : List Value) :
    (Eval.invoke host call name callee arguments).Below
      (Eval.invoke host call' name callee arguments) := by
  cases callee with
  | function d => exact .onSink (hc d arguments)
  | number n => exact .refl _
  | text content => exact .refl _
  | builtin b => exact .refl _

theorem callWith_below (hc : call.Below call') (callee : String) {x y : Eval (List Value)}
    (h : x.Below y) :
    (callWith host call callee x).Below (callWith host call' callee y) :=
  .bind (.refl _) fun _ => h.bind fun _ => invoke_below hc _ _ _

mutual

theorem evalExpr_below (hc : call.Below call') :
    ∀ e : Expr, (evalExpr host call e).Below (evalExpr host call' e)
  | .number _ | .text _ | .variable _ | .function _ => by
    simp only [evalExpr]
    exact .refl _
  | .binary _ l r => by
    simp only [evalExpr]
    exact (evalExpr_below hc l).bind fun _ => (evalExpr_below hc r).bind fun _ => .refl _
  | .call callee arguments => by
    simp only [evalExpr]
    exact (callWith_below hc callee (evalAll_below hc arguments)).bind fun _ => .refl _

theorem evalAll_below (hc : call.Below call') :
    ∀ es : List Expr, (evalAll host call es).Below (evalAll host call' es)
  | [] => by
    simp only [evalAll]
    exact .refl _
  | e :: es => by
    simp only [evalAll]
    exact (evalExpr_below hc e).bind fun _ => (evalAll_below hc es).bind fun _ => .refl _

end

theorem evalNode_below (hc : call.Below call') (n : Node) :
    (evalNode host call n).Below (evalNode host call' n) := by
  fun_cases evalNode host call n with
  | case1 form name e =>
    exact .bind (.refl _) fun _ => (evalExpr_below hc e).bind fun _ => .refl _
  | case2 e => exact (evalExpr_below hc e).bind fun _ => .refl _
  | case3 d => exact .refl _
  | case4 callee arguments =>
    exact (callWith_below hc callee (evalAll_below hc arguments)).bind fun _ => .refl _
  | case5 e hf hcall =>
    rw [evalNode.eq_5 host call' e hf hcall]
    exact (evalExpr_below hc e).bind fun _ => .refl _

theorem evalNodes_below (hc : call.Below call') (last : Option Value) (ns : List Node) :
    (evalNodes host call last ns).Below (evalNodes host call' last ns) := by
  induction ns generalizing last with
  | nil => exact .refl _
  | cons n ns ih =>
    refine (evalNode_below hc n).bind ?_
    rintro (last | v)
    · exact ih last
    · exact .refl _

theorem callBody_below (hc : call.Below call') :
    (callBody host call).Below (callBody host call') := by
  intro d arguments sink r h
  unfold callBody at h ⊢
  cases hs : Scope.frame d arguments with
  | error e =>
    simp only [hs] at h ⊢
    exact h
  | ok scope =>
    simp only [hs] at h ⊢
    obtain ⟨outcome, ho, hr⟩ := Option.map_eq_some_iff.mp h
    exact Option.map_eq_some_iff.mpr ⟨outcome, evalNodes_below hc none d.body _ _ ho, hr⟩

end

/-- One step more of depth keeps what there was. -/
theorem callWithin_below_succ (host : Host) (depth : Nat) :
    (callWithin host depth).Below (callWithin host (depth + 1)) := by
  induction depth with
  | zero =>
    intro d arguments sink r h
    cases h
  | succ depth ih => exact callBody_below ih

theorem callWithin_below (host : Host) {depth depth' : Nat} (h : depth ≤ depth') :
    (callWithin host depth).Below (callWithin host depth') := by
  induction h with
  | refl => exact fun _ _ _ _ hr => hr
  | step _ ih =>
    intro d arguments sink r hr
    exact callWithin_below_succ host _ _ _ _ _ (ih _ _ _ _ hr)

theorem evalProgram_below (host : Host) {depth depth' : Nat} (h : depth ≤ depth')
    (program : Program) :
    (evalProgram host depth program).Below (evalProgram host depth' program) :=
  (evalNodes_below (callWithin_below host h) none program).bind fun _ => .refl _

/-- The run of a program ends, with this outcome and this machine. -/
def EvaluatesTo (host : Host) (program : Program) (m : Machine)
    (r : Except EvalError (Option Value) × Machine) : Prop :=
  ∃ depth, (evalProgram host depth program).on m = some r

theorem EvaluatesTo.unique {host : Host} {program : Program} {m : Machine}
    {r r' : Except EvalError (Option Value) × Machine} (h : EvaluatesTo host program m r)
    (h' : EvaluatesTo host program m r') : r = r' := by
  obtain ⟨depth, hr⟩ := h
  obtain ⟨depth', hr'⟩ := h'
  have hm := evalProgram_below host (Nat.le_max_left depth depth') program _ _ hr
  have hm' := evalProgram_below host (Nat.le_max_right depth depth') program _ _ hr'
  exact Option.some.inj (hm.symm.trans hm')

/-- A greater depth keeps the outcome of a run. -/
theorem run_of_le {host : Host} {depth depth' : Nat} (h : depth ≤ depth') {source : String}
    {m : Machine} {r : Except Error (Option Value) × Machine}
    (hr : run host depth source m = some r) : run host depth' source m = some r := by
  unfold run at hr ⊢
  cases hp : readProgram source with
  | error e =>
    simp only [hp] at hr ⊢
    exact hr
  | ok program =>
    simp only [hp] at hr ⊢
    obtain ⟨outcome, ho, hr⟩ := Option.map_eq_some_iff.mp hr
    exact Option.map_eq_some_iff.mpr ⟨outcome, evalProgram_below host h program _ _ ho, hr⟩

/-- The run of a source ends, with this outcome and this machine. -/
def RunsTo (host : Host) (source : String) (m : Machine)
    (r : Except Error (Option Value) × Machine) : Prop :=
  ∃ depth, run host depth source m = some r

/-- How deep calls may nest does not change what a run leads to. -/
theorem RunsTo.unique {host : Host} {source : String} {m : Machine}
    {r r' : Except Error (Option Value) × Machine} (h : RunsTo host source m r)
    (h' : RunsTo host source m r') : r = r' := by
  obtain ⟨depth, hr⟩ := h
  obtain ⟨depth', hr'⟩ := h'
  have hm := run_of_le (Nat.le_max_left depth depth') hr
  have hm' := run_of_le (Nat.le_max_right depth depth') hr'
  exact Option.some.inj (hm.symm.trans hm')

end TinyScript
