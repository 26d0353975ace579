import TinyScript.Repl
import TinyScript.Proofs.Composition
import TinyScript.Proofs.Output

/-!
The prompt as a sequence of runs. Each line is run on the scope that the line before it left, and
what is written is what the runs write, each behind its prompt and with its outcome shown.
-/

namespace TinyScript

/-- The bytes fall into these pieces, one up to each line feed. Behind the last line feed there may
be another piece, if it is not empty. -/
inductive FallsInto : List UInt8 → List (List UInt8) → Prop where
  | nil : FallsInto [] []
  | last {bytes : List UInt8} (hne : bytes ≠ []) (h : 10 ∉ bytes) : FallsInto bytes [bytes]
  | line {bytes rest : List UInt8} {pieces : List (List UInt8)} (h : 10 ∉ bytes)
      (hrest : FallsInto rest pieces) :
      FallsInto (bytes ++ 10 :: rest) ((bytes ++ [10]) :: pieces)

/-- The bytes that a text is written with. -/
def utf8 (text : String) : List UInt8 :=
  text.toUTF8.data.toList

/-- The lines of an input are its pieces up to the first that is the writing of no text. -/
def LinesOf (input : List UInt8) (lines : List String) : Prop :=
  ∃ rest, FallsInto input (lines.map utf8 ++ rest) ∧ ∀ piece ∈ rest.head?, ∀ text, utf8 text ≠ piece

theorem decode?_eq_some_iff {bytes : List UInt8} {text : String} :
    decode? bytes = some text ↔ utf8 text = bytes := by
  have hb : utf8 text = bytes ↔ text.toByteArray = ⟨bytes.toArray⟩ := by
    rw [utf8, ByteArray.ext_iff, ← Array.toList_inj]
    rfl
  rw [hb, decode?, String.fromUTF8?]
  split
  · rw [Option.some.injEq, ← String.toByteArray_inj]
    exact eq_comm
  · rename_i hv
    constructor
    · intro h
      cases h
    · intro h
      rw [← h] at hv
      exact absurd text.isValidUTF8 hv

theorem decode?_eq_none_iff {bytes : List UInt8} :
    decode? bytes = none ↔ ∀ text, utf8 text ≠ bytes := by
  simp only [Option.eq_none_iff_forall_ne_some, ne_eq, decode?_eq_some_iff]

/-- The first piece is the one that is taken. -/
theorem FallsInto.takeLine {bytes piece : List UInt8} {pieces : List (List UInt8)}
    (h : FallsInto bytes (piece :: pieces)) :
    ∃ rest, takeLine bytes = (piece, rest) ∧ piece ≠ [] ∧ FallsInto rest pieces := by
  cases h with
  | last hne h => exact ⟨[], takeLine_of_last h, hne, .nil⟩
  | line h hrest => exact ⟨_, takeLine_of_line h _, by simp, hrest⟩

theorem exists_fallsInto (bytes : List UInt8) : ∃ pieces, FallsInto bytes pieces := by
  induction hl : bytes.length using Nat.strongRecOn generalizing bytes with
  | _ len ih =>
    subst hl
    by_cases hm : 10 ∈ bytes
    · obtain ⟨line, rest, rfl, hline⟩ := List.eq_append_cons_of_mem hm
      obtain ⟨pieces, hp⟩ := ih rest.length (by simp; omega) rest rfl
      exact ⟨_, .line hline hp⟩
    · by_cases he : bytes = []
      · exact ⟨[], he ▸ .nil⟩
      · exact ⟨[bytes], .last he hm⟩

/-- Pieces are texts up to some point. -/
theorem exists_texts (pieces : List (List UInt8)) :
    ∃ (lines : List String) (rest : List (List UInt8)), pieces = lines.map utf8 ++ rest ∧
      ∀ piece ∈ rest.head?, ∀ text, utf8 text ≠ piece := by
  induction pieces with
  | nil => exact ⟨[], [], rfl, by simp⟩
  | cons piece pieces ih =>
    by_cases ht : ∃ text, utf8 text = piece
    · obtain ⟨text, rfl⟩ := ht
      obtain ⟨lines, rest, rfl, hr⟩ := ih
      exact ⟨text :: lines, rest, rfl, hr⟩
    · exact ⟨[], piece :: pieces, rfl, by simpa using ht⟩

theorem exists_linesOf (input : List UInt8) : ∃ lines, LinesOf input lines := by
  obtain ⟨pieces, hp⟩ := exists_fallsInto input
  obtain ⟨lines, rest, rfl, hr⟩ := exists_texts pieces
  exact ⟨lines, rest, hp, hr⟩

/-- Nothing is read behind the last line. -/
theorem LinesOf.readLine?_nil {input : List UInt8} (h : LinesOf input []) :
    readLine? input = none := by
  obtain ⟨rest, hf, hr⟩ := h
  rw [List.map_nil, List.nil_append] at hf
  cases rest with
  | nil =>
    cases hf
    rfl
  | cons piece pieces =>
    obtain ⟨_, ht, hne, _⟩ := hf.takeLine
    have hd : decode? piece = none := decode?_eq_none_iff.mpr (hr piece (by simp))
    simp only [readLine?, ht, if_neg hne, hd, Option.map_none]

theorem LinesOf.readLine?_cons {input : List UInt8} {line : String} {lines : List String}
    (h : LinesOf input (line :: lines)) :
    ∃ rest, readLine? input = some (line, rest) ∧ LinesOf rest lines := by
  obtain ⟨pieces, hf, hr⟩ := h
  obtain ⟨rest, ht, hne, hrest⟩ := hf.takeLine
  refine ⟨rest, ?_, pieces, hrest, hr⟩
  simp only [readLine?, ht, if_neg hne, decode?_eq_some_iff.mpr rfl, Option.map_some]

/-- What is to be seen of the outcome of a line. -/
def shown : Except Error (Option Value) → String
  | .ok (some v) => v.display ++ "\n"
  | .ok none => ""
  | .error (.lex e) => "\t" ++ e.message ++ "\n"
  | .error (.parse e) => "\t" ++ e.message ++ "\n"
  | .error (.eval e) => "ERROR: " ++ e.message ++ "\n"

/-- The lines are run in order, the first on the scope `env` and each on what the one before it
left, up to `env'`. The output is all that is written until the prompt behind the last line. -/
inductive Exchange : Scope → List String → ByteArray → Scope → Prop where
  | nil {env : Scope} : Exchange env [] .empty env
  | line {env env' : Scope} {line : String} {lines : List String} {output : ByteArray}
      {r : Except Error (Option Value)} {m : Machine}
      (hr : RunsTo .standard line ⟨env, .unlimited⟩ (r, m))
      (hrest : Exchange m.scope lines output env') :
      Exchange env (line :: lines)
        (">> ".toUTF8 ++ m.sink.written ++ (shown r).toUTF8 ++ output) env'

namespace Repl

/-- A line is taken like a source that is run and whose outcome is shown. -/
theorem answer_eq_run (depth : Nat) (line : String) (m : Machine) :
    answer depth line m = (run .standard depth line m).map fun (r, m) => m.print (shown r) := by
  unfold answer run readProgram
  cases tokenize line with
  | error e => rfl
  | ok tokens =>
    simp only [Except.mapError, bind, Except.bind]
    cases parse tokens with
    | error e => rfl
    | ok program =>
      simp only [execute, Option.map_map]
      congr 1
      funext outcome
      obtain ⟨e | _ | v, m⟩ := outcome
      · rfl
      · rfl
      · rfl

theorem answer_behind (depth : Nat) (line : String) (env : Scope) (before : ByteArray) :
    answer depth line ⟨env, ⟨before, none⟩⟩ =
      (run .standard depth line ⟨env, .unlimited⟩).map fun (r, m) =>
        ⟨m.scope, ⟨before ++ m.sink.written ++ (shown r).toUTF8, none⟩⟩ := by
  rw [answer_eq_run, run_behind Host.standard_streams, Option.map_map]
  rfl

/-- One round of the dialogue: a prompt, a run, and its outcome. -/
theorem dialogue_step {input rest : List UInt8} {line : String}
    (h : readLine? input = some (line, rest)) (depth : Nat) (env : Scope) (before : ByteArray) :
    dialogue depth input ⟨env, ⟨before, none⟩⟩ =
      (run .standard depth line ⟨env, .unlimited⟩).bind fun (r, m) =>
        dialogue depth rest ⟨m.scope,
          ⟨before ++ ">> ".toUTF8 ++ m.sink.written ++ (shown r).toUTF8, none⟩⟩ := by
  rw [dialogue_of_some h, Machine.print_of_limit_none, answer_behind, Option.bind_map]
  rfl

theorem dialogue_end {input : List UInt8} (h : LinesOf input []) (depth : Nat) (env : Scope)
    (before : ByteArray) :
    dialogue depth input ⟨env, ⟨before, none⟩⟩ =
      some ⟨env, ⟨before ++ .empty ++ ">> ".toUTF8, none⟩⟩ := by
  rw [dialogue_of_none h.readLine?_nil, Machine.print_of_limit_none, ByteArray.append_empty]
  rfl

/-- A dialogue that ends was an exchange over all the lines of its input. -/
theorem exchange_of_dialogue {input : List UInt8} {lines : List String} (hl : LinesOf input lines)
    {depth : Nat} {env : Scope} {before : ByteArray} {m : Machine}
    (h : dialogue depth input ⟨env, ⟨before, none⟩⟩ = some m) :
    ∃ output env', Exchange env lines output env' ∧
      m = ⟨env', ⟨before ++ output ++ ">> ".toUTF8, none⟩⟩ := by
  induction lines generalizing input env before with
  | nil =>
    rw [dialogue_end hl] at h
    exact ⟨.empty, env, .nil, (Option.some.inj h).symm⟩
  | cons line lines ih =>
    obtain ⟨rest, hread, hrest⟩ := hl.readLine?_cons
    rw [dialogue_step hread] at h
    obtain ⟨⟨r, m₁⟩, hr, h⟩ := Option.bind_eq_some_iff.mp h
    obtain ⟨output, env', he, rfl⟩ := ih hrest h
    exact ⟨_, env', .line ⟨depth, hr⟩ he, by simp only [ByteArray.append_assoc]⟩

/-- An exchange is what the dialogue comes to, if calls may nest deep enough for all the runs. -/
theorem dialogue_of_exchange {lines : List String} {env env' : Scope} {output : ByteArray}
    (h : Exchange env lines output env') :
    ∃ depth, ∀ depth', depth ≤ depth' → ∀ input before, LinesOf input lines →
      dialogue depth' input ⟨env, ⟨before, none⟩⟩ =
        some ⟨env', ⟨before ++ output ++ ">> ".toUTF8, none⟩⟩ := by
  induction h with
  | nil => exact ⟨0, fun depth' _ input before hl => dialogue_end hl depth' _ before⟩
  | @line env env' line lines output r m hr hrest ih =>
    obtain ⟨depth, hr⟩ := hr
    obtain ⟨depthRest, ih⟩ := ih
    -- the deeper of the two is deep enough for this line and for those behind it
    refine ⟨max depth depthRest, fun depth' hle input before hl => ?_⟩
    obtain ⟨rest, hread, hl⟩ := hl.readLine?_cons
    have hrest := ih depth' (by omega) rest
      (before ++ ">> ".toUTF8 ++ m.sink.written ++ (shown r).toUTF8) hl
    rw [dialogue_step hread, run_of_le (by omega) hr, Option.bind_some]
    simpa only [ByteArray.append_assoc] using hrest

end Repl

/-- The prompt iterates runs. Every input has lines, and the process ends if the runs of its lines
do, each on the scope that the one before it left, whether that one failed or not. Then the banner
was written, for each line the prompt, the output of its run and its outcome, and one more
prompt. -/
theorem report_eq_some_iff_exchange (input : ByteArray) :
    (∃ lines, LinesOf input.data.toList lines) ∧
    ∀ lines, LinesOf input.data.toList lines → ∀ report,
      ((∃ depth, Repl.report depth input = some report) ↔
        ∃ output env, Exchange .empty lines output env ∧
          report = ⟨
            "Hello! This is the sy scripting language!\nFeel free to type in commands\n".toUTF8 ++
              output ++ ">> ".toUTF8, "", 0⟩) := by
  have hstart : Repl.start = ⟨.empty, ⟨Repl.banner.toUTF8, none⟩⟩ := by
    rw [Repl.start, Sink.unlimited, Machine.print_of_limit_none, ByteArray.empty_append]
  refine ⟨exists_linesOf _, fun lines hl report => ?_⟩
  simp only [Repl.report, Repl.transcript, hstart, Option.map_map]
  constructor
  · intro h
    obtain ⟨depth, h⟩ := h
    obtain ⟨m, hd, h⟩ := Option.map_eq_some_iff.mp h
    obtain ⟨output, env, he, rfl⟩ := Repl.exchange_of_dialogue hl hd
    exact ⟨output, env, he, h.symm⟩
  · intro h
    obtain ⟨output, env, he, h⟩ := h
    obtain ⟨depth, hd⟩ := Repl.dialogue_of_exchange he
    exact ⟨depth, Option.map_eq_some_iff.mpr ⟨_, hd depth (Nat.le_refl _) _ _ hl, h.symm⟩⟩

/-- What a line declares before it fails is there for the next line. Behind the two lines there is
a byte that starts no text. -/
theorem report_eq_some_iff_exchange_failing_line :
    ∃ depth, Repl.report depth ("let a = 7; b\na\n".toUTF8.push 255) =
      some ⟨("Hello! This is the sy scripting language!\nFeel free to type in commands\n" ++
        ">> ERROR: undefined variable: b\n>> 7\n>> ").toUTF8, "", 0⟩ := by
  have ht : tokenize "let a = 7; b\n" =
      .ok [⟨"let"⟩, ⟨"a"⟩, ⟨"="⟩, ⟨"7"⟩, ⟨";"⟩, ⟨"b"⟩] :=
    tokenize_eq_ok_iff.mpr ⟨rfl, rfl, rfl, rfl, rfl, rfl, rfl⟩
  have ht' : tokenize "a\n" = .ok [⟨"a"⟩] := tokenize_eq_ok_iff.mpr ⟨rfl, rfl⟩
  have hu : SimpleUnit [⟨"let"⟩, ⟨"a"⟩, ⟨"="⟩, ⟨"7"⟩] (.declare .mutable "a" (.number "7")) :=
    .declare .mutable rfl (parseExpr_flat (.number rfl))
  have hb : SimpleUnit [⟨"b"⟩] (.expr (.variable "b")) := .expr (parseExpr_flat (.name rfl))
  have ha : SimpleUnit [⟨"a"⟩] (.expr (.variable "a")) := .expr (parseExpr_flat (.name rfl))
  have hp := (Derives.unit hu (.last hb)).parse
  have hp' := (Derives.last ha).parse
  let left : Scope := ⟨[("a", .number 7)], by decide⟩
  have hrun : RunsTo .standard "let a = 7; b\n" ⟨.empty, .unlimited⟩
      (.error (.eval (.unbound "b")), ⟨left, .unlimited⟩) :=
    ⟨0, run_of_readProgram (readProgram_eq_ok ht hp) _⟩
  have hrun' : RunsTo .standard "a\n" ⟨left, .unlimited⟩
      (.ok (some (.number 7)), ⟨left, .unlimited⟩) :=
    ⟨0, run_of_readProgram (readProgram_eq_ok ht' hp') _⟩
  have hpieces : FallsInto (utf8 "let a = 7; b" ++ 10 :: (utf8 "a" ++ 10 :: [255]))
      [utf8 "let a = 7; b" ++ [10], utf8 "a" ++ [10], [255]] :=
    .line (by decide) (.line (by decide) (.last (by decide) (by decide)))
  have hlast : ∀ text, utf8 text ≠ [255] := decode?_eq_none_iff.mp (by decide)
  have hlines : LinesOf ("let a = 7; b\na\n".toUTF8.push 255).data.toList
      ["let a = 7; b\n", "a\n"] :=
    ⟨[[255]], hpieces, by simpa using hlast⟩
  have h := (report_eq_some_iff_exchange ("let a = 7; b\na\n".toUTF8.push 255)).2 _ hlines
  exact (h _).mpr ⟨_, _, .line hrun (.line hrun' .nil), rfl⟩

end TinyScript
