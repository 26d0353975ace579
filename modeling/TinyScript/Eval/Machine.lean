import TinyScript.Eval.Host

/-!
The state of a running program and the steps that change it. A run ends with a value or an error
and keeps its state either way; it gives nothing at all if calls nest deeper than allowed.
-/

namespace TinyScript

structure Machine where
  scope : Scope
  sink : Sink

/-- Writes text, as much of it as the sink takes. -/
def Machine.print (m : Machine) (text : String) : Machine :=
  { m with sink := (m.sink.write text.toUTF8).2 }

abbrev Eval := ExceptT EvalError (StateT Machine Option)

/-- How calls of defined functions are carried out. A call gets the sink but not the scope of its
caller. -/
abbrev Caller :=
  Definition → List Value → Sink → Option (Except EvalError (Option Value) × Sink)

namespace Eval

/-- What a computation does to a machine. -/
def on {α : Type} (x : Eval α) (m : Machine) : Option (Except EvalError α × Machine) :=
  x.run.run m

def lookup (host : Host) (name : String) : Eval Value := do
  match host.resolve (← get).scope name with
  | .ok v => return v
  | .error e => throw e

def declare (name : String) (v : Value) : Eval Unit := do
  let m ← get
  match m.scope.declare name v with
  | .ok scope => set { m with scope }
  | .error e => throw e

/-- Fails if the name is bound. -/
def requireUnbound (name : String) : Eval Unit := do
  if (← get).scope.contains name then throw (.alreadyBound name)

/-- Lets a computation on the sink run, the scope left alone. -/
def onSink {α : Type} (f : Sink → Option (Except EvalError α × Sink)) : Eval α :=
  ExceptT.mk fun m => (f m.sink).map fun (result, sink) => (result, { m with sink })

/-- Calls `callee`, which went by the name `name`. -/
def invoke (host : Host) (call : Caller) (name : String) (callee : Value)
    (arguments : List Value) : Eval (Option Value) :=
  match callee with
  | .function d => onSink (call d arguments)
  | .builtin b =>
    match host.function? b with
    | some f => onSink fun sink => some (f arguments sink)
    | none => throw (.notCallable name .builtin)
  | v => throw (.notCallable name v.type)

@[simp]
theorem on_pure {α : Type} (a : α) (m : Machine) : (pure a : Eval α).on m = some (.ok a, m) :=
  rfl

@[simp]
theorem on_throw {α : Type} (e : EvalError) (m : Machine) :
    (throw e : Eval α).on m = some (.error e, m) :=
  rfl

/-- An error ends the computation and keeps the machine as it is by then. -/
theorem on_bind {α β : Type} (x : Eval α) (f : α → Eval β) (m : Machine) :
    (x >>= f).on m =
      match x.on m with
      | none => none
      | some (.error e, m') => some (.error e, m')
      | some (.ok a, m') => (f a).on m' := by
  change (ExceptT.run (x >>= f)).run m = _
  rw [ExceptT.run_bind, StateT.run_bind, on]
  cases x.run.run m with
  | none => rfl
  | some pair =>
    obtain ⟨result, m'⟩ := pair
    cases result <;> rfl

/-- A computation in two parts ends where the first part fails, or where the second one ends. -/
theorem on_bind_eq_some_iff {α β : Type} {x : Eval α} {f : α → Eval β} {m : Machine}
    {r : Except EvalError β × Machine} :
    (x >>= f).on m = some r ↔
      (∃ e mid, x.on m = some (.error e, mid) ∧ r = (.error e, mid)) ∨
      ∃ a mid, x.on m = some (.ok a, mid) ∧ (f a).on mid = some r := by
  rw [on_bind]
  constructor
  · intro h
    split at h
    · cases h
    · rename_i e mid hx
      cases h
      exact .inl ⟨e, mid, hx, rfl⟩
    · rename_i a mid hx
      exact .inr ⟨a, mid, hx, h⟩
  · intro h
    rcases h with ⟨e, mid, hx, rfl⟩ | ⟨a, mid, hx, hr⟩
    · rw [hx]
    · rw [hx]
      exact hr

theorem on_lookup (host : Host) (name : String) (m : Machine) :
    (lookup host name).on m = some (host.resolve m.scope name, m) := by
  rw [lookup, on_bind]
  change (match host.resolve m.scope name with
    | .ok v => pure v
    | .error e => throw e : Eval Value).on m = _
  cases host.resolve m.scope name <;> rfl

theorem on_requireUnbound (name : String) (m : Machine) :
    (requireUnbound name).on m =
      some (if m.scope.contains name then .error (.alreadyBound name) else .ok (), m) := by
  rw [requireUnbound, on_bind]
  change (if m.scope.contains name then throw (.alreadyBound name)
    else pure () : Eval Unit).on m = _
  split <;> rfl

theorem on_declare (name : String) (v : Value) (m : Machine) :
    (declare name v).on m =
      match m.scope.declare name v with
      | .ok scope => some (.ok (), { m with scope })
      | .error e => some (.error e, m) := by
  rw [declare, on_bind]
  change (match m.scope.declare name v with
    | .ok scope => set { m with scope }
    | .error e => throw e : Eval Unit).on m = _
  cases m.scope.declare name v <;> rfl

theorem on_onSink {α : Type} (f : Sink → Option (Except EvalError α × Sink)) (m : Machine) :
    (onSink f).on m = (f m.sink).map fun (result, sink) => (result, { m with sink }) :=
  rfl

end Eval

end TinyScript
