import TinyScript.Run
import TinyScript.Text.Lines

/-!
The interactive prompt. Each line is a source of its own; what it binds is there for the lines
after it, also if the line fails.
-/

namespace TinyScript

namespace Repl

def banner : String :=
  "Hello! This is the sy scripting language!\nFeel free to type in commands\n"

def prompt : String := ">> "

def start : Machine :=
  (Machine.mk .empty .unlimited).print banner

/-- What is shown for a line that cannot be read. -/
def rejection (message : String) : String :=
  "\t" ++ message ++ "\n"

/-- What is shown for a line that was run. -/
def result : Except EvalError (Option Value) → String
  | .ok (some v) => v.display ++ "\n"
  | .ok none => ""
  | .error e => "ERROR: " ++ e.message ++ "\n"

/-- Takes a line behind the prompt that asked for it. -/
def answer (depth : Nat) (line : String) (m : Machine) : Option Machine :=
  match tokenize line with
  | .error e => some (m.print (rejection e.message))
  | .ok tokens =>
    match parse tokens with
    | .error e => some (m.print (rejection e.message))
    | .ok program =>
      ((evalProgram .standard depth program).on m).map fun (outcome, m) => m.print (result outcome)

/-- Asks for one line after the other, until there is none to be had. -/
def dialogue (depth : Nat) (input : List UInt8) (m : Machine) : Option Machine :=
  match _h : readLine? input with
  | none => some (m.print prompt)
  | some (line, rest) => do dialogue depth rest (← answer depth line (m.print prompt))
termination_by input.length
decreasing_by exact length_of_readLine? _h

theorem dialogue_of_none {input : List UInt8} (h : readLine? input = none) (depth : Nat)
    (m : Machine) : dialogue depth input m = some (m.print prompt) := by
  rw [dialogue]
  split
  · rfl
  · rename_i hs
    rw [h] at hs
    cases hs

theorem dialogue_of_some {input rest : List UInt8} {line : String}
    (h : readLine? input = some (line, rest)) (depth : Nat) (m : Machine) :
    dialogue depth input m = (answer depth line (m.print prompt)).bind (dialogue depth rest) := by
  rw [dialogue]
  split
  · rename_i hn
    rw [h] at hn
    cases hn
  · rename_i hs
    rw [h] at hs
    cases hs
    rfl

/-- All that is written for an input. -/
def transcript (depth : Nat) (input : ByteArray) : Option ByteArray :=
  (dialogue depth input.data.toList start).map fun m => m.sink.written

/-- Nothing that a line does makes the process fail. -/
def report (depth : Nat) (input : ByteArray) : Option Report :=
  (transcript depth input).map fun output => ⟨output, "", 0⟩

end Repl

end TinyScript
