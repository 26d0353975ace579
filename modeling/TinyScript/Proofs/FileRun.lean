import TinyScript.Script
import TinyScript.Proofs.Composition
import TinyScript.Proofs.Output

/-!
Files as runs. A file is taken through the same stages as a source that is run, and what the process
leaves is what the run leaves: its output behind the tree that was asked for, and its error.
-/

namespace TinyScript

theorem readProgram_of_lexError {source : String} {e : LexError}
    (h : tokenize source = .error e) : readProgram source = .error (.lex e) := by
  simp only [readProgram, h, Except.mapError, bind, Except.bind]

theorem readProgram_of_parseError {source : String} {ts : List Token} {e : ParseError}
    (ht : tokenize source = .ok ts) (h : parse ts = .error e) :
    readProgram source = .error (.parse e) := by
  simp only [readProgram, ht, h, Except.mapError, bind, Except.bind]

namespace Script

/-- What is written before a source is run: its tree, if that is asked for and there is one. -/
def preamble (showTree : Bool) (source : String) : String :=
  if showTree then (readProgram source).toOption.elim "" Program.print else ""

/-- A source that cannot be read leaves nothing but its error. -/
theorem behind_preamble_of_error {source : String} {e : Error}
    (h : readProgram source = .error e) (showTree : Bool) :
    (Machine.mk .empty .unlimited).behind (preamble showTree source).toUTF8 =
      ⟨.empty, .unlimited⟩ := by
  have hp : preamble showTree source = "" := by
    cases showTree <;> simp [preamble, h, Except.toOption]
  rw [hp]
  rfl

/-- A program starts behind its tree, or behind nothing. -/
theorem print_of_ok {source : String} {p : Program} (h : readProgram source = .ok p)
    (showTree : Bool) :
    (if showTree then (Machine.mk .empty .unlimited).print p.print
      else Machine.mk .empty .unlimited) =
      ⟨.empty, ⟨(preamble showTree source).toUTF8, none⟩⟩ := by
  cases showTree with
  | false => rfl
  | true => simp [preamble, h, Except.toOption, Sink.unlimited, Machine.print_of_limit_none]

/-- The stages of a file are those of a run, and it fails where the run fails. -/
theorem runSource_eq_run (depth : Nat) (showTree : Bool) (source : String) :
    runSource depth showTree source =
      (run .standard depth source ⟨.empty, .unlimited⟩).map fun (r, m) =>
        (r.map fun _ => (), (m.behind (preamble showTree source).toUTF8).sink) := by
  unfold runSource
  cases ht : tokenize source with
  | error e =>
    have hr := readProgram_of_lexError ht
    simp only [run, hr, Option.map_some, behind_preamble_of_error hr]
    rfl
  | ok tokens =>
    cases hp : parse tokens with
    | error e =>
      have hr := readProgram_of_parseError ht hp
      simp only [hp, run, hr, Option.map_some, behind_preamble_of_error hr]
      rfl
    | ok program =>
      have hr := readProgram_eq_ok ht hp
      simp only [hp, run_of_readProgram hr, execute, print_of_ok hr,
        evalProgram_behind Host.standard_streams, Option.map_map]
      congr 1
      funext outcome
      obtain ⟨e | v, m⟩ := outcome
      · rfl
      · rfl

/-- A file that is a text is run as that text. -/
theorem report_of_text (depth : Nat) (showTree : Bool) (path source : String) :
    report depth showTree path (.ok source.toUTF8) =
      (run .standard depth source ⟨.empty, .unlimited⟩).map fun (r, m) =>
        reportOf (r.map fun _ => (), (m.behind (preamble showTree source).toUTF8).sink) := by
  have hu : String.fromUTF8? source.toUTF8 = some source := dif_pos source.isValidUTF8
  have hsource : ((Except.ok source.toUTF8 : Except ReadFailure ByteArray).bind fun bytes =>
      (String.fromUTF8? bytes).elim (.error .notText) .ok) = .ok source := by
    simp only [Except.bind, hu, Option.elim]
  simp only [report, hsource, runSource_eq_run, Option.map_map]
  rfl

/-- The output, whether all went well, and the error if not, make up the report of an outcome. -/
theorem reportOf_eq_iff {r : Except Error (Option Value)} {sink : Sink} {report : Report} :
    reportOf (r.map fun _ => (), sink) = report ↔
      report.output = sink.written ∧
        (report.exitCode = 0 ∧ report.errors = "" ↔ ∃ v, r = .ok v) ∧
        ∀ e, r = .error e →
          report.exitCode = 1 ∧ report.errors = "ERROR: " ++ e.message ++ "\n" := by
  cases r with
  | ok v =>
    constructor
    · rintro rfl
      refine ⟨rfl, ⟨fun _ => ⟨v, rfl⟩, fun _ => ⟨rfl, rfl⟩⟩, ?_⟩
      intro e he
      cases he
    · obtain ⟨output, errors, exitCode⟩ := report
      rintro ⟨rfl, hok, _⟩
      obtain ⟨rfl, rfl⟩ := hok.mpr ⟨v, rfl⟩
      rfl
  | error e =>
    constructor
    · rintro rfl
      refine ⟨rfl, ⟨?_, ?_⟩, ?_⟩
      · intro hs
        have hcode : (1 : UInt32) = 0 := hs.1
        exact absurd hcode (by decide)
      · rintro ⟨v, hv⟩
        cases hv
      · intro e' he
        cases he
        exact ⟨rfl, rfl⟩
    · obtain ⟨output, errors, exitCode⟩ := report
      rintro ⟨rfl, _, herr⟩
      obtain ⟨rfl, rfl⟩ := herr e rfl
      rfl

end Script

/-- A process that runs a file ends if the run of the source does. It has then written the tree of
the program, where that is asked for and the source is a program, and behind it what the run
writes. It succeeds in silence if and only if the run does, whatever value that gives, and otherwise
reports the very error of the run. -/
theorem report_eq_some_iff_run (showTree : Bool) (path source : String) (report : Report) :
    (∃ depth, Script.report depth showTree path (.ok source.toUTF8) = some report) ↔
      ∃ r m, RunsTo .standard source ⟨.empty, .unlimited⟩ (r, m) ∧
        report.output = (Script.preamble showTree source).toUTF8 ++ m.sink.written ∧
        (report.exitCode = 0 ∧ report.errors = "" ↔ ∃ v, r = .ok v) ∧
        ∀ e, r = .error e →
          report.exitCode = 1 ∧ report.errors = "ERROR: " ++ e.message ++ "\n" := by
  simp only [Script.report_of_text]
  constructor
  · rintro ⟨depth, h⟩
    obtain ⟨⟨r, m⟩, hr, hreport⟩ := Option.map_eq_some_iff.mp h
    exact ⟨r, m, ⟨depth, hr⟩, Script.reportOf_eq_iff.mp hreport⟩
  · rintro ⟨r, m, ⟨depth, hr⟩, hparts⟩
    exact ⟨depth, Option.map_eq_some_iff.mpr ⟨_, hr, Script.reportOf_eq_iff.mpr hparts⟩⟩

end TinyScript
