import TinyScript.Eval.Scope
import TinyScript.Eval.Sink

/-!
The functions that the language does not define itself. A host says which names a program can
see, and what each builtin does; a builtin that a program got hold of stays callable where its
name is not seen. A program sees each builtin under the builtin's own name.
-/

namespace TinyScript

/-- Builtins take values and may write. They see no scope. -/
abbrev HostFunction := List Value → Sink → Except EvalError (Option Value) × Sink

structure Host where
  names : List String
  function? : String → Option HostFunction

/-- Writes its arguments on one line, with a space between any two. -/
def println : HostFunction := fun arguments sink =>
  let line := String.intercalate " " (arguments.map Value.display) ++ "\n"
  match sink.write line.toUTF8 with
  | (.ok (), sink) => (.ok none, sink)
  | (.error e, sink) => (.error e, sink)

namespace Host

/-- Programs see `println` and no other builtin. What the others do, which only a scope can hold, is
left to `others`. -/
def standardWith (others : String → Option HostFunction) : Host where
  names := ["println"]
  function? name := if name = "println" then some println else others name

/-- There are no builtins but the one that programs see. A run that starts with no bindings comes upon
no other. -/
def standard : Host :=
  standardWith fun _ => none

/-- What a name stands for: scopes come before builtins. -/
def resolve (host : Host) (scope : Scope) (name : String) : Except EvalError Value :=
  match scope.get? name with
  | some v => .ok v
  | none =>
    if host.names.contains name then .ok (.builtin name) else .error (.unbound name)

/-- What is true of printing and of the other builtins is true of all of them. -/
theorem of_function?_standardWith {others : String → Option HostFunction}
    {good : HostFunction → Prop} (hp : good println) (ho : ∀ b f, others b = some f → good f)
    {b : String} {f : HostFunction} (h : (standardWith others).function? b = some f) : good f := by
  simp only [standardWith] at h
  split at h
  · cases h
    exact hp
  · exact ho b f h

end Host

/-- One builtin besides the one that programs see. -/
def onlyBuiltin (name : String) (f : HostFunction) : String → Option HostFunction := fun b =>
  if b = name then some f else none

theorem of_onlyBuiltin {name b : String} {f g : HostFunction} {good : HostFunction → Prop}
    (hf : good f) (h : onlyBuiltin name f b = some g) : good g := by
  unfold onlyBuiltin at h
  split at h <;> cases h
  exact hf

/-- A scope that binds one name, to a builtin. -/
def Scope.holding (name b : String) : Scope :=
  ⟨[(name, .builtin b)], by simp⟩

theorem Scope.eq_of_get?_holding {name b other : String} {v : Value}
    (h : (Scope.holding name b).get? other = some v) : v = .builtin b := by
  have hm := Scope.mem_of_get? h
  simp only [holding, List.mem_singleton, Prod.mk.injEq] at hm
  exact hm.2

/-- Gives back its first argument. -/
def firstArgument : HostFunction := fun arguments sink =>
  (.ok arguments.head?, sink)

/-- Gives one value, whatever its arguments are. -/
def giving (v : Value) : HostFunction := fun _ sink =>
  (.ok (some v), sink)

end TinyScript
