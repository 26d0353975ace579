import TinyScript.Proofs.Depth

/-!
What a run writes. The only thing that a run can notice of its sink is that a write fails. So a
run on any sink is like one that writes all its output at once: if the output fits, nothing else is
different, and if it does not, the run ends with the failed write and nothing is written behind it.
-/

namespace TinyScript

namespace Sink

/-- Bytes in two pieces are written like the pieces one after the other. -/
theorem write_append (t : Sink) (a b : ByteArray) :
    t.write (a ++ b) =
      match t.write a with
      | (.ok (), t') => t'.write b
      | (.error e, t') => (.error e, t') := by
  obtain ⟨w, limit⟩ := t
  cases limit with
  | none => simp [write_of_limit_none, ByteArray.append_assoc]
  | some n =>
    by_cases ha : w.size + a.size ≤ n
    · -- the first piece fits, so both writes end at the same byte
      have hcut : (a ++ b).extract 0 (n - w.size) = a ++ b.extract 0 (n - (w.size + a.size)) := by
        rw [ByteArray.extract_append, Nat.zero_sub, Nat.sub_sub]
        congr 1
        have hsize : n - w.size = max (n - w.size) a.size := by omega
        rw [hsize, ByteArray.extract_zero_max_size]
      simp [write, hasRoom, ha, hcut, ByteArray.append_assoc, Nat.add_assoc]
    · have hab : ¬ w.size + (a.size + b.size) ≤ n := by omega
      have hcut : (a ++ b).extract 0 (n - w.size) = a.extract 0 (n - w.size) := by
        have hb : n - w.size - a.size = 0 := by omega
        rw [ByteArray.extract_append, Nat.zero_sub, hb, ByteArray.extract_same,
          ByteArray.append_empty]
      simp [write, hasRoom, ha, hab, hcut]

theorem write_empty {t : Sink} (h : t.hasRoom 0 = true) : t.write .empty = (.ok (), t) := by
  rw [write_of_hasRoom h, ByteArray.append_empty]

/-- A write that succeeds does not go over the limit. -/
theorem hasRoom_of_write {t t' : Sink} {bytes : ByteArray}
    (h : t.write bytes = (.ok (), t')) : t'.hasRoom 0 = true := by
  unfold write at h
  split at h
  · rename_i hr
    cases h
    unfold hasRoom at hr ⊢
    simpa using hr
  · cases h

end Sink

/-- The outcome on the sink `t` of a computation that gives `r`, leaves the scope `s` and writes
`output`. If the output does not fit, there is the error of the write instead, and whatever scope
there was by then. -/
def Delivers {α : Type} (output : ByteArray) (r : Except EvalError α) (s : Scope) (t : Sink)
    (outcome : Option (Except EvalError α × Machine)) : Prop :=
  match t.write output with
  | (.ok (), t') => outcome = some (r, ⟨s, t'⟩)
  | (.error e, t') => ∃ s', outcome = some (.error e, ⟨s', t'⟩)

/-- A computation that only writes to its sink. From a scope it starts in, either it has no outcome
on any unlimited sink, or what it gives and writes is the same on all sinks. -/
def Eval.Streams {α : Type} (x : Eval α) : Prop :=
  ∀ s, (∀ t : Sink, t.limit = none → x.on ⟨s, t⟩ = none) ∨
    ∃ output r s', ∀ t : Sink, t.hasRoom 0 = true → Delivers output r s' t (x.on ⟨s, t⟩)

namespace Eval.Streams

variable {α β : Type}

/-- What leaves the sink alone. -/
theorem of_eq {x : Eval α} {f : Scope → Except EvalError α × Scope}
    (h : ∀ s t, x.on ⟨s, t⟩ = some ((f s).1, ⟨(f s).2, t⟩)) : Eval.Streams x := by
  intro s
  refine .inr ⟨.empty, (f s).1, (f s).2, fun t ht => ?_⟩
  rw [Delivers, Sink.write_empty ht]
  exact h s t

theorem pure (a : α) : Eval.Streams (Pure.pure a : Eval α) :=
  of_eq (f := fun s => (.ok a, s)) fun _ _ => rfl

theorem throw (e : EvalError) : Eval.Streams (MonadExcept.throw e : Eval α) :=
  of_eq (f := fun s => (.error e, s)) fun _ _ => rfl

theorem lookup (host : Host) (name : String) : Eval.Streams (Eval.lookup host name) :=
  of_eq (f := fun s => (host.resolve s name, s)) fun s t => Eval.on_lookup host name ⟨s, t⟩

theorem requireUnbound (name : String) : Eval.Streams (Eval.requireUnbound name) :=
  of_eq (f := fun s => (if s.contains name then .error (.alreadyBound name) else .ok (), s))
    fun s t => Eval.on_requireUnbound name ⟨s, t⟩

theorem declare (name : String) (v : Value) : Eval.Streams (Eval.declare name v) := by
  apply of_eq (f := fun s =>
    ((s.declare name v).map fun _ => (), (s.declare name v).toOption.getD s))
  intro s t
  rw [Eval.on_declare]
  dsimp only
  cases s.declare name v <;> rfl

/-- Both parts write one after the other, and the second does not start if the first fails. -/
theorem bind {x : Eval α} {f : α → Eval β} (hx : Eval.Streams x)
    (hf : ∀ a, Eval.Streams (f a)) : Eval.Streams (x >>= f) := by
  intro s
  rcases hx s with hnone | ⟨output, r, s₁, hfirst⟩
  · refine .inl fun t ht => ?_
    rw [Eval.on_bind, hnone t ht]
  · cases r with
    | error e =>
      refine .inr ⟨output, .error e, s₁, fun t ht => ?_⟩
      have ho := hfirst t ht
      rw [Delivers] at ho ⊢
      rw [Eval.on_bind]
      split at ho
      · rw [ho]
      · obtain ⟨s', ho⟩ := ho
        rw [ho]
        exact ⟨s', rfl⟩
    | ok a =>
      rcases hf a s₁ with hnone | ⟨output', r', s₂, hsecond⟩
      · refine .inl fun t ht => ?_
        have ho := hfirst t (by simp [Sink.hasRoom, ht])
        rw [Delivers, Sink.write_of_limit_none ht] at ho
        rw [Eval.on_bind, ho]
        exact hnone _ ht
      · refine .inr ⟨output ++ output', r', s₂, fun t ht => ?_⟩
        have ho := hfirst t ht
        rw [Delivers] at ho ⊢
        rw [Eval.on_bind, Sink.write_append]
        split at ho
        · rename_i t' hw
          rw [ho]
          exact hsecond t' (Sink.hasRoom_of_write hw)
        · rename_i e t' hw
          obtain ⟨s', ho⟩ := ho
          rw [ho]
          exact ⟨s', rfl⟩

end Eval.Streams

/-- Calls only write to the sink they are given. -/
def Caller.Streams (call : Caller) : Prop :=
  ∀ d arguments, (Eval.onSink (call d arguments)).Streams

/-- So does a builtin that notices nothing of its sink but a failed write, and then fails too. -/
def HostFunction.Streams (f : HostFunction) : Prop :=
  ∀ arguments, (Eval.onSink fun sink => some (f arguments sink)).Streams

def Host.Streams (host : Host) : Prop :=
  ∀ b f, host.function? b = some f → f.Streams

/-- Printing is one write. -/
theorem println_streams : HostFunction.Streams println := by
  intro arguments s
  let line := String.intercalate " " (arguments.map Value.display) ++ "\n"
  refine .inr ⟨line.toUTF8, .ok none, s, fun t _ => ?_⟩
  rw [Delivers, Eval.on_onSink]
  simp only [println, Option.map_some]
  split
  · rename_i t' hw
    rw [hw]
  · rename_i e t' hw
    rw [hw]
    exact ⟨s, rfl⟩

theorem Host.standardWith_streams {others : String → Option HostFunction}
    (h : ∀ b f, others b = some f → f.Streams) : (standardWith others).Streams :=
  fun _ _ => of_function?_standardWith println_streams h

theorem Host.standard_streams : Host.standard.Streams :=
  standardWith_streams fun _ _ h => nomatch h

section

variable {host : Host} {call : Caller}

theorem invoke_streams (hh : host.Streams) (hc : call.Streams) (name : String) (callee : Value)
    (arguments : List Value) : (Eval.invoke host call name callee arguments).Streams := by
  unfold Eval.invoke
  cases callee with
  | function d => exact hc d arguments
  | builtin b =>
    dsimp only
    cases hf : host.function? b with
    | none => exact .throw _
    | some f => exact hh b f hf arguments
  | number n => exact .throw _
  | text content => exact .throw _

theorem callWith_streams (hh : host.Streams) (hc : call.Streams) (callee : String)
    {x : Eval (List Value)} (hx : x.Streams) : (callWith host call callee x).Streams :=
  (Eval.Streams.lookup host callee).bind fun _ => hx.bind fun _ => invoke_streams hh hc _ _ _

mutual

theorem evalExpr_streams (hh : host.Streams) (hc : call.Streams) :
    ∀ e : Expr, (evalExpr host call e).Streams
  | .number raw => by
    rw [evalExpr]
    cases numberOf? raw with
    | none => exact .throw _
    | some n => exact .pure _
  | .text content => by
    rw [evalExpr]
    exact .pure _
  | .variable name => by
    rw [evalExpr]
    exact .lookup host name
  | .binary op l r => by
    rw [evalExpr]
    refine (evalExpr_streams hh hc l).bind fun a => (evalExpr_streams hh hc r).bind fun b => ?_
    cases op.onValues a b with
    | ok v => exact .pure _
    | error e => exact .throw _
  | .call callee arguments => by
    rw [evalExpr]
    refine (callWith_streams hh hc callee (evalAll_streams hh hc arguments)).bind ?_
    rintro (_ | v)
    · exact .throw _
    · exact .pure _
  | .function d => by
    rw [evalExpr]
    exact (Eval.Streams.declare _ _).bind fun _ => .pure _

theorem evalAll_streams (hh : host.Streams) (hc : call.Streams) :
    ∀ es : List Expr, (evalAll host call es).Streams
  | [] => by
    rw [evalAll]
    exact .pure _
  | e :: es => by
    rw [evalAll]
    exact (evalExpr_streams hh hc e).bind fun _ =>
      (evalAll_streams hh hc es).bind fun _ => .pure _

end

theorem evalNode_streams (hh : host.Streams) (hc : call.Streams) (n : Node) :
    (evalNode host call n).Streams := by
  fun_cases evalNode host call n with
  | case1 form name e =>
    exact (Eval.Streams.requireUnbound name).bind fun _ => (evalExpr_streams hh hc e).bind fun v =>
      (Eval.Streams.declare name v).bind fun _ => .pure _
  | case2 e => exact (evalExpr_streams hh hc e).bind fun _ => .pure _
  | case3 d => exact (Eval.Streams.declare _ _).bind fun _ => .pure _
  | case4 callee arguments =>
    exact (callWith_streams hh hc callee (evalAll_streams hh hc arguments)).bind fun _ => .pure _
  | case5 e hf hcall => exact (evalExpr_streams hh hc e).bind fun _ => .pure _

theorem evalNodes_streams (hh : host.Streams) (hc : call.Streams) (last : Option Value)
    (ns : List Node) : (evalNodes host call last ns).Streams := by
  induction ns generalizing last with
  | nil => exact .pure _
  | cons n ns ih =>
    refine (evalNode_streams hh hc n).bind ?_
    rintro (last | v)
    · exact ih last
    · exact .pure _

/-- A body writes to the sink of its caller and keeps its scope to itself. -/
theorem callBody_streams (hh : host.Streams) (hc : call.Streams) :
    (callBody host call).Streams := by
  intro d arguments s
  simp only [Eval.on_onSink, callBody]
  cases Scope.frame d arguments with
  | error e =>
    refine .inr ⟨.empty, .error e, s, fun t ht => ?_⟩
    rw [Delivers, Sink.write_empty ht]
    rfl
  | ok frame =>
    rcases evalNodes_streams hh hc none d.body frame with hnone | ⟨output, r, s', hbody⟩
    · refine .inl fun t ht => ?_
      simp only [hnone t ht, Option.map_none]
    · refine .inr ⟨output, r.map Completion.answer, s, fun t ht => ?_⟩
      have ho := hbody t ht
      rw [Delivers] at ho ⊢
      split at ho
      · simp only [ho, Option.map_some]
      · obtain ⟨s'', ho⟩ := ho
        exact ⟨s, by simp only [ho, Option.map_some]; rfl⟩

end

theorem callWithin_streams {host : Host} (hh : host.Streams) (depth : Nat) :
    (callWithin host depth).Streams := by
  induction depth with
  | zero => exact fun d arguments s => .inl fun t ht => rfl
  | succ depth ih => exact callBody_streams hh ih

theorem evalProgram_streams {host : Host} (hh : host.Streams) (depth : Nat) (p : Program) :
    (evalProgram host depth p).Streams :=
  (evalNodes_streams hh (callWithin_streams hh depth) none p).bind fun _ => .pure _

/-- A run that ends with an unlimited sink ends on every sink, with its output delivered there. -/
theorem evalProgram_delivers {host : Host} (hh : host.Streams) {depth : Nat} {p : Program}
    {env : Scope} {r : Except EvalError (Option Value)} {m : Machine}
    (h : (evalProgram host depth p).on ⟨env, .unlimited⟩ = some (r, m)) {t : Sink}
    (ht : t.hasRoom 0 = true) :
    Delivers m.sink.written r m.scope t ((evalProgram host depth p).on ⟨env, t⟩) := by
  rcases evalProgram_streams hh depth p env with hnone | ⟨output, r', s', hall⟩
  · rw [hnone .unlimited rfl] at h
    cases h
  · have ho := hall .unlimited rfl
    rw [Delivers, Sink.write_of_limit_none rfl, h] at ho
    cases ho
    simpa [Sink.unlimited] using hall t ht

/-- The machine that has written `before`, and then what `m` has. -/
def Machine.behind (before : ByteArray) (m : Machine) : Machine :=
  ⟨m.scope, ⟨before ++ m.sink.written, none⟩⟩

theorem Machine.print_of_limit_none (s : Scope) (w : ByteArray) (text : String) :
    (Machine.mk s ⟨w, none⟩).print text = ⟨s, ⟨w ++ text.toUTF8, none⟩⟩ := by
  rw [Machine.print, Sink.write_of_limit_none rfl]

/-- Without a limit, a run does not see what was written before it. -/
theorem evalProgram_behind {host : Host} (hh : host.Streams) (depth : Nat) (p : Program)
    (env : Scope) (before : ByteArray) :
    (evalProgram host depth p).on ⟨env, ⟨before, none⟩⟩ =
      ((evalProgram host depth p).on ⟨env, .unlimited⟩).map fun (r, m) => (r, m.behind before) := by
  rcases evalProgram_streams hh depth p env with hnone | ⟨output, r, s', hall⟩
  · rw [hnone _ rfl, hnone _ rfl, Option.map_none]
  · have ho := hall ⟨before, none⟩ rfl
    have hu := hall .unlimited rfl
    rw [Delivers, Sink.write_of_limit_none rfl] at ho hu
    rw [ho, hu]
    simp [Machine.behind, Sink.unlimited]

theorem run_behind {host : Host} (hh : host.Streams) (depth : Nat) (source : String)
    (env : Scope) (before : ByteArray) :
    run host depth source ⟨env, ⟨before, none⟩⟩ =
      (run host depth source ⟨env, .unlimited⟩).map fun (r, m) => (r, m.behind before) := by
  unfold run
  cases readProgram source with
  | error e => simp [Machine.behind, Sink.unlimited]
  | ok program =>
    simp only [execute, evalProgram_behind hh, Option.map_map]
    rfl

/-- A sink with a limit only cuts off. If what a run writes is within the limit, the run ends on the
limited sink in the same way; if it is not, the run fails there, with exactly the bytes up to the
limit written. The builtins that only a scope can hold have to write in this way too. -/
theorem evalProgram_limited {others : String → Option HostFunction}
    (hothers : ∀ b f, others b = some f → f.Streams) (p : Program) (env : Scope) (n : Nat)
    {r : Except EvalError (Option Value)} {m : Machine}
    (h : EvaluatesTo (.standardWith others) p ⟨env, .unlimited⟩ (r, m)) :
    (m.sink.written.size ≤ n → EvaluatesTo (.standardWith others) p ⟨env, .limited n⟩
      (r, ⟨m.scope, ⟨m.sink.written, some n⟩⟩)) ∧
    (n < m.sink.written.size → ∃ m', m'.sink.written = m.sink.written.extract 0 n ∧
      EvaluatesTo (.standardWith others) p ⟨env, .limited n⟩
        (.error (.outputFailed "failed to write whole buffer"), m')) := by
  obtain ⟨depth, h⟩ := h
  have hd := evalProgram_delivers (Host.standardWith_streams hothers) h (t := .limited n)
    (by simp [Sink.hasRoom, Sink.limited])
  constructor
  · intro hle
    have hr : (Sink.limited n).hasRoom m.sink.written.size = true := by
      simpa [Sink.hasRoom, Sink.limited] using hle
    rw [Delivers, Sink.write_of_hasRoom hr] at hd
    exact ⟨depth, by simpa [Sink.limited] using hd⟩
  · intro hlt
    have hr : (Sink.limited n).hasRoom m.sink.written.size = false := by
      simpa [Sink.hasRoom, Sink.limited] using hlt
    rw [Delivers, Sink.write, if_neg (by simp [hr])] at hd
    obtain ⟨s', hd⟩ := hd
    exact ⟨_, by simp [Sink.limited], depth, hd⟩

/-- With room for the text of a line but not for its end, the text is written and the run fails, be
it printed by the builtin that is seen or by one of the scope. -/
theorem evalProgram_limited_line :
    (∃ r m, EvaluatesTo (.standardWith (onlyBuiltin "print" println))
        [.expr (.call "b" [.text "ab"]), .declare .mutable "a" (.number "1")]
        ⟨.holding "b" "print", .unlimited⟩ (r, m) ∧
      m.sink.written = "ab\n".toUTF8 ∧
      EvaluatesTo (.standardWith (onlyBuiltin "print" println))
        [.expr (.call "b" [.text "ab"]), .declare .mutable "a" (.number "1")]
        ⟨.holding "b" "print", .limited 3⟩
        (r, ⟨m.scope, ⟨m.sink.written, some 3⟩⟩)) ∧
    ∃ m', m'.sink.written = "ab".toUTF8 ∧
      EvaluatesTo (.standardWith (onlyBuiltin "print" println))
        [.expr (.call "println" [.text "ab"]), .declare .mutable "a" (.number "1")]
        ⟨.holding "b" "print", .limited 2⟩
        (.error (.outputFailed "failed to write whole buffer"), m') := by
  have hprint : ∀ b f, onlyBuiltin "print" println b = some f → f.Streams :=
    fun _ _ => of_onlyBuiltin println_streams
  have hheld : EvaluatesTo (.standardWith (onlyBuiltin "print" println))
      [.expr (.call "b" [.text "ab"]), .declare .mutable "a" (.number "1")]
      ⟨.holding "b" "print", .unlimited⟩
      (.ok none, ⟨⟨[("a", .number 1), ("b", .builtin "print")], by decide⟩,
        ⟨"ab\n".toUTF8, none⟩⟩) := ⟨0, rfl⟩
  have hseen : EvaluatesTo (.standardWith (onlyBuiltin "print" println))
      [.expr (.call "println" [.text "ab"]), .declare .mutable "a" (.number "1")]
      ⟨.holding "b" "print", .unlimited⟩
      (.ok none, ⟨⟨[("a", .number 1), ("b", .builtin "print")], by decide⟩,
        ⟨"ab\n".toUTF8, none⟩⟩) := ⟨0, rfl⟩
  refine ⟨⟨_, _, hheld, rfl, (evalProgram_limited hprint _ _ 3 hheld).1 (by decide)⟩, ?_⟩
  obtain ⟨m', hw, hr⟩ := (evalProgram_limited hprint _ _ 2 hseen).2 (by decide)
  exact ⟨m', hw.trans (by decide), hr⟩

/-- Writes a text and gives no value, also if the write fails. -/
def writingQuietly (text : String) : HostFunction := fun _ sink =>
  (.ok none, (sink.write text.toUTF8).2)

/-- A builtin that only the scope holds can hide that a write fails. Then the run goes on. -/
theorem write_hidden_by_builtin :
    (∃ m, EvaluatesTo (.standardWith (onlyBuiltin "quiet" (writingQuietly "ab")))
        [.expr (.call "b" [])] ⟨.holding "b" "quiet", .unlimited⟩
        (.ok none, m) ∧ 1 < m.sink.written.size) ∧
    ∀ r m, EvaluatesTo (.standardWith (onlyBuiltin "quiet" (writingQuietly "ab")))
      [.expr (.call "b" [])] ⟨.holding "b" "quiet", .limited 1⟩ (r, m) ↔
      (r, m) = (.ok none, ⟨.holding "b" "quiet", ⟨"a".toUTF8, some 1⟩⟩) := by
  have hlimited : EvaluatesTo (.standardWith (onlyBuiltin "quiet" (writingQuietly "ab")))
      [.expr (.call "b" [])] ⟨.holding "b" "quiet", .limited 1⟩
      (.ok none, ⟨.holding "b" "quiet", ⟨"a".toUTF8, some 1⟩⟩) := ⟨0, rfl⟩
  refine ⟨⟨_, ⟨0, rfl⟩, by decide⟩, fun r m => ⟨fun h => h.unique hlimited, fun h => ?_⟩⟩
  rw [h]
  exact hlimited

end TinyScript
