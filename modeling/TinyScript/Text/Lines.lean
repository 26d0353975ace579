/-!
Bytes as lines of text.
-/

namespace TinyScript

/-- Cuts behind the first line feed. Without one, all the bytes are one line. -/
def takeLine : List UInt8 → List UInt8 × List UInt8
  | [] => ([], [])
  | b :: bs =>
    if b = 10 then ([b], bs)
    else
      let (line, rest) := takeLine bs
      (b :: line, rest)

def decode? (bytes : List UInt8) : Option String :=
  String.fromUTF8? ⟨bytes.toArray⟩

/-- The next line and what is left behind it. There is none at the end of the bytes, nor if the
line is no UTF-8. -/
def readLine? (bytes : List UInt8) : Option (String × List UInt8) :=
  let (line, rest) := takeLine bytes
  if line = [] then none else (decode? line).map fun text => (text, rest)

/-- No byte is lost. -/
theorem takeLine_append (bytes : List UInt8) :
    (takeLine bytes).1 ++ (takeLine bytes).2 = bytes := by
  induction bytes with
  | nil => rfl
  | cons b bs ih =>
    rw [takeLine]
    split
    · rfl
    · exact congrArg (b :: ·) ih

theorem takeLine_of_last {bytes : List UInt8} (h : 10 ∉ bytes) : takeLine bytes = (bytes, []) := by
  induction bytes with
  | nil => rfl
  | cons b bs ih =>
    rw [List.mem_cons, not_or] at h
    rw [takeLine, if_neg fun hb => h.1 hb.symm, ih h.2]

theorem takeLine_of_line {bytes : List UInt8} (h : 10 ∉ bytes) (rest : List UInt8) :
    takeLine (bytes ++ 10 :: rest) = (bytes ++ [10], rest) := by
  induction bytes with
  | nil => rfl
  | cons b bs ih =>
    rw [List.mem_cons, not_or] at h
    rw [List.cons_append, takeLine, if_neg fun hb => h.1 hb.symm, ih h.2]
    rfl

theorem length_of_readLine? {bytes rest : List UInt8} {line : String}
    (h : readLine? bytes = some (line, rest)) : rest.length < bytes.length := by
  unfold readLine? at h
  dsimp only at h
  split at h
  · cases h
  · rename_i hne
    obtain ⟨text, _, hr⟩ := Option.map_eq_some_iff.mp h
    cases hr
    have hpos := List.length_pos_iff.mpr hne
    have hlen := congrArg List.length (takeLine_append bytes)
    rw [List.length_append] at hlen
    omega

end TinyScript
