import TinyScript.Repl
import TinyScript.Script

/-!
The command line. With a path it runs that file, without one it asks for lines.
-/

namespace TinyScript.Main

/-- How deep calls may nest. -/
def callDepth : Nat := 5000

def tooDeep : String :=
  "ERROR: calls nest too deep\n"

def readFile (path : String) : IO (Except ReadFailure ByteArray) := do
  try
    return .ok (← IO.FS.readBinFile path)
  catch
    | .noFileOrDirectory _ _ _ => return .error .missing
    | .inappropriateType _ _ _ => return .error .directory
    | e => return .error (.other (toString e))

/-- Writes what the sink holds and empties it. -/
def flush (m : Machine) : IO Machine := do
  let stdout ← IO.getStdout
  stdout.write m.sink.written
  stdout.flush
  return { m with sink := .unlimited }

/-- The bytes up to the next line feed or the end of the input. -/
partial def readBytes (line : ByteArray) : IO ByteArray := do
  let next ← (← IO.getStdin).read 1
  if next.isEmpty || next.data.contains 10 then return line ++ next
  else readBytes (line ++ next)

/-- The next line, unless the input is at its end or the line is no text. -/
def readLine? : IO (Option String) := do
  let line ← readBytes .empty
  return if line.isEmpty then none else String.fromUTF8? line

partial def converse (m : Machine) : IO UInt32 := do
  let m ← flush (m.print Repl.prompt)
  match ← readLine? with
  | none => return 0
  | some line =>
    match Repl.answer callDepth line m with
    | some m => converse m
    | none => IO.eprint tooDeep; return 1

def runFile (path : String) (showTree : Bool) : IO UInt32 := do
  match Script.report callDepth showTree path (← readFile path) with
  | some report =>
    (← IO.getStdout).write report.output
    IO.eprint report.errors
    return report.exitCode
  | none => IO.eprint tooDeep; return 1

end TinyScript.Main

def main (args : List String) : IO UInt32 := do
  match args with
  | path :: _ => TinyScript.Main.runFile path (← IO.getEnv "SY_SHOW_AST").isSome
  | [] => TinyScript.Main.converse TinyScript.Repl.start
