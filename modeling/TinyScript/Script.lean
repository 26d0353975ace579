import TinyScript.Run

/-!
Running a file: its output, what is reported about it, and whether it went well.
-/

namespace TinyScript

/-- Why a file gives no text. -/
inductive ReadFailure where
  | notText
  | missing
  | directory
  | other (reason : String)

def ReadFailure.message : ReadFailure → String
  | notText => "stream did not contain valid UTF-8"
  | missing => "No such file or directory (os error 2)"
  | directory => "Is a directory (os error 21)"
  | other reason => reason

namespace Script

/-- Runs a source in an empty scope, showing its tree first if asked to. The tree of a source
that cannot be read is not shown. -/
def runSource (depth : Nat) (showTree : Bool) (source : String) :
    Option (Except Error Unit × Sink) :=
  match tokenize source with
  | .error e => some (.error (.lex e), .unlimited)
  | .ok tokens =>
    match parse tokens with
    | .error e => some (.error (.parse e), .unlimited)
    | .ok program =>
      let start := Machine.mk .empty .unlimited
      let shown := if showTree then start.print program.print else start
      ((evalProgram .standard depth program).on shown).map fun (outcome, m) =>
        ((outcome.map fun _ => ()).mapError .eval, m.sink)

def reportOf : Except Error Unit × Sink → Report
  | (.ok (), sink) => ⟨sink.written, "", 0⟩
  | (.error e, sink) => ⟨sink.written, "ERROR: " ++ e.message ++ "\n", 1⟩

/-- Runs what was found under `path`. -/
def report (depth : Nat) (showTree : Bool) (path : String)
    (content : Except ReadFailure ByteArray) : Option Report :=
  let source := content.bind fun bytes => (String.fromUTF8? bytes).elim (.error .notText) .ok
  match source with
  | .error failure =>
    some ⟨.empty, "ERROR: cannot read " ++ path ++ ": " ++ failure.message ++ "\n", 1⟩
  | .ok text => (runSource depth showTree text).map reportOf

end Script

end TinyScript
