import TinyScript.Eval.Error

/-!
Where output goes: bytes, with or without a limit on how many can be written in all.
-/

namespace TinyScript

structure Sink where
  written : ByteArray
  limit : Option Nat

namespace Sink

def unlimited : Sink :=
  ⟨ByteArray.empty, none⟩

def limited (n : Nat) : Sink :=
  ⟨ByteArray.empty, some n⟩

/-- Whether `n` more bytes can be written. -/
def hasRoom (s : Sink) (n : Nat) : Bool :=
  s.limit.all (s.written.size + n ≤ ·)

/-- Writes bytes at the end. If not all of them fit, those that do are written and the write
fails. -/
def write (s : Sink) (bytes : ByteArray) : Except EvalError Unit × Sink :=
  if s.hasRoom bytes.size then (.ok (), { s with written := s.written ++ bytes })
  else
    (.error (.outputFailed "failed to write whole buffer"),
      { s with written := s.written ++ bytes.extract 0 (s.limit.getD 0 - s.written.size) })

theorem write_of_hasRoom {s : Sink} {bytes : ByteArray} (h : s.hasRoom bytes.size = true) :
    s.write bytes = (.ok (), { s with written := s.written ++ bytes }) := by
  simp [write, h]

theorem write_of_limit_none {s : Sink} (h : s.limit = none) (bytes : ByteArray) :
    s.write bytes = (.ok (), { s with written := s.written ++ bytes }) :=
  write_of_hasRoom (by simp [hasRoom, h])

end Sink

end TinyScript
