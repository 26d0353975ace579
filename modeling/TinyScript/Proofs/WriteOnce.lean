import TinyScript.Proofs.Discipline

/-!
Bindings are made once. Names get bound by declarations, and by functions wherever these stand, also
inside a declaration or an argument that fails later. Whatever happens, a scope only grows, and only
by names that the program binds outside the bodies of its functions.
-/

namespace TinyScript

/-- A declaration or a function of this name stands in the program, outside the bodies of
functions. -/
def Program.Binds (p : Program) (name : String) : Prop :=
  .declared name ∈ Node.occurrencesAll p ∨
    ∃ d, .function d ∈ Node.occurrencesAll p ∧ d.name = name

/-- What `env` binds is bound in `s` to the same values, and other names only if they are among
`names`. -/
structure Scope.Extends (env : Scope) (names : String → Prop) (s : Scope) : Prop where
  kept : ∀ name v, env.get? name = some v → s.get? name = some v
  new : ∀ name, s.contains name = true → env.contains name = false → names name

section

variable {env : Scope} {names : String → Prop}

theorem Scope.Extends.refl (env : Scope) (names : String → Prop) : env.Extends names env where
  kept _ _ h := h
  new name hs he := by
    rw [hs] at he
    cases he

/-- A binding is added only where there was none. -/
theorem Scope.Extends.declare {s t : Scope} (h : env.Extends names s) {name : String}
    (hn : names name) {v : Value} (hd : s.declare name v = .ok t) : env.Extends names t := by
  have hunbound : s.get? name = none := by
    simpa [Scope.contains] using (Scope.bindings_of_declare hd).1
  constructor
  · intro other w hw
    have hs := h.kept other w hw
    have ho : other ≠ name := by
      rintro rfl
      rw [hunbound] at hs
      cases hs
    rw [Scope.get?_of_declare hd, if_neg ho, hs]
  · intro other ht he
    by_cases ho : other = name
    · exact ho ▸ hn
    · rw [Scope.contains, Scope.get?_of_declare hd, if_neg ho] at ht
      exact h.new other ht he

theorem Scope.Extends.declare_result {s : Scope} (h : env.Extends names s) {name : String}
    (hn : names name) (v : Value) :
    ResultIs (env.Extends names) (fun _ => True) (s.declare name v) := by
  cases hd : s.declare name v with
  | ok t => exact h.declare hn hd
  | error e => trivial

/-- Evaluation that leaves what `env` binds and binds only `names`. -/
def extending (env : Scope) (names : String → Prop) : Discipline where
  scope := env.Extends names
  value _ := True
  callee _ := True
  error _ := True
  stuck := True

theorem extending_admits (host : Host) (env : Scope) (p : Program) :
    ∀ o ∈ Node.occurrencesAll p, (extending env p.Binds).Admits host o := by
  intro o ho
  match o, ho with
  | .variable name, _ => exact fun _ _ => resultIs_true _
  | .callee name, _ => exact fun _ _ => resultIs_true _
  | .declared name, ho => exact fun s v hs _ => hs.declare_result (.inl ho) v
  | .function d, ho => exact ⟨trivial, fun s hs => hs.declare_result (.inr ⟨d, ho, rfl⟩) _⟩

end

/-- However a run ends, all that was bound before it is bound to the same values, and what it has
bound are names of declarations and functions that stand in the program outside the bodies of
functions. -/
theorem evalProgram_extends (host : Host) (p : Program) (env : Scope) (sink : Sink)
    {r : Except EvalError (Option Value)} {m : Machine}
    (h : EvaluatesTo host p ⟨env, sink⟩ (r, m)) : env.Extends p.Binds m.scope := by
  obtain ⟨depth, h⟩ := h
  have rules : (extending env p.Binds).Rules host (callWithin host depth) :=
    .of_forall (fun _ => trivial) (fun _ => trivial) trivial
  have hkeeps := Discipline.evalProgram_keeps rules p (extending_admits host env p)
  exact (hkeeps.outcome h (.refl env _)).1

/-- A declaration whose initial value is a function of the same name. The function is bound, and
then the declaration fails. -/
theorem evalProgram_extends_same_name :
    ∃ m, EvaluatesTo .standard
        [.declare .mutable "a" (.function ⟨"a", [], [.declare .mutable "b" (.number "1")]⟩)]
        ⟨⟨[("x", .number 7)], by decide⟩, .unlimited⟩ (.error (.alreadyBound "a"), m) ∧
      m.scope.contains "a" = true ∧
      Scope.Extends ⟨[("x", .number 7)], by decide⟩
        (Program.Binds
          [.declare .mutable "a" (.function ⟨"a", [], [.declare .mutable "b" (.number "1")]⟩)])
        m.scope := by
  have hrun : EvaluatesTo .standard
      [.declare .mutable "a" (.function ⟨"a", [], [.declare .mutable "b" (.number "1")]⟩)]
      ⟨⟨[("x", .number 7)], by decide⟩, .unlimited⟩ (.error (.alreadyBound "a"), _) := ⟨0, rfl⟩
  exact ⟨_, hrun, rfl, evalProgram_extends .standard _ _ _ hrun⟩

end TinyScript
