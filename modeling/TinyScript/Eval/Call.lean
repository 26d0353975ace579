import TinyScript.Eval.Nodes

/-!
Calls of defined functions, and with them whole programs. The only thing that can go on for ever
is calls inside calls, so these are allowed up to a depth, and everything else needs no bound.
-/

namespace TinyScript

/-- Runs the body of a function in a scope of its own, calls in it being carried out by `call`. -/
def callBody (host : Host) (call : Caller) : Caller := fun d arguments sink =>
  match Scope.frame d arguments with
  | .error e => some (.error e, sink)
  | .ok scope =>
    ((evalNodes host call none d.body).on ⟨scope, sink⟩).map fun (ending, m) =>
      (ending.map Completion.answer, m.sink)

/-- Carries out calls that nest at most `depth` deep. -/
def callWithin (host : Host) : Nat → Caller
  | 0 => fun _ _ _ => none
  | depth + 1 => callBody host (callWithin host depth)

/-- Runs a program. Its result is what its last node gave, or what it returned. -/
def evalProgram (host : Host) (depth : Nat) (program : Program) : Eval (Option Value) :=
  return (← evalNodes host (callWithin host depth) none program).result

end TinyScript
