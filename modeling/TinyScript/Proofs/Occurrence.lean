import TinyScript.Proofs.Grammar

/-!
What stands in a tree. A body belongs to its function, so the names in it do not stand in the tree
around the function. In a program that was read, functions stand on their own only.
-/

namespace TinyScript

/-- Something that stands in a tree, outside the bodies of functions. -/
inductive Occurrence where
  | variable (name : String)
  | callee (name : String)
  /-- The name of a declaration. -/
  | declared (name : String)
  | function (definition : Definition)
  deriving DecidableEq

def Occurrence.name : Occurrence → String
  | .variable name | .callee name | .declared name => name
  | .function d => d.name

/-- The name that is looked up at an occurrence. -/
def Occurrence.lookup? : Occurrence → Option String
  | .variable name | .callee name => some name
  | .declared _ | .function _ => none

theorem Occurrence.lookup?_eq_some_iff {o : Occurrence} {name : String} :
    o.lookup? = some name ↔ o = .variable name ∨ o = .callee name := by
  cases o <;> simp [Occurrence.lookup?]

mutual

def Expr.occurrences : Expr → List Occurrence
  | .number _ | .text _ => []
  | .variable name => [.variable name]
  | .binary _ l r => l.occurrences ++ r.occurrences
  | .call callee arguments => .callee callee :: Expr.occurrencesAll arguments
  | .function d => [.function d]

def Expr.occurrencesAll : List Expr → List Occurrence
  | [] => []
  | e :: es => e.occurrences ++ Expr.occurrencesAll es

end

def Node.occurrences : Node → List Occurrence
  | .declare _ name e => .declared name :: e.occurrences
  | .ret e | .expr e => e.occurrences

def Node.occurrencesAll (ns : List Node) : List Occurrence :=
  ns.flatMap Node.occurrences

/-- The name that a node binds in the scope where it stands, if the node is a declaration or a
function. -/
def Node.binds? : Node → Option String
  | .declare _ name _ => some name
  | .expr (.function d) => some d.name
  | _ => none

mutual

/-- The functions in a tree at any depth, those inside bodies too. -/
def Expr.definitions : Expr → List Definition
  | .number _ | .text _ | .variable _ => []
  | .binary _ l r => l.definitions ++ r.definitions
  | .call _ arguments => Expr.definitionsAll arguments
  | .function d => d.definitions

def Expr.definitionsAll : List Expr → List Definition
  | [] => []
  | e :: es => e.definitions ++ Expr.definitionsAll es

def Definition.definitions : Definition → List Definition
  | ⟨name, parameters, body⟩ => ⟨name, parameters, body⟩ :: Node.definitionsAll body

def Node.definitions : Node → List Definition
  | .declare _ _ e | .ret e | .expr e => e.definitions

def Node.definitionsAll : List Node → List Definition
  | [] => []
  | n :: ns => n.definitions ++ Node.definitionsAll ns

end

theorem Expr.mem_occurrencesAll_iff {o : Occurrence} {es : List Expr} :
    o ∈ Expr.occurrencesAll es ↔ ∃ e ∈ es, o ∈ e.occurrences := by
  induction es with
  | nil => simp [Expr.occurrencesAll]
  | cons e es ih => simp [Expr.occurrencesAll, ih]

theorem Node.mem_occurrencesAll_iff {o : Occurrence} {ns : List Node} :
    o ∈ Node.occurrencesAll ns ↔ ∃ n ∈ ns, o ∈ n.occurrences :=
  List.mem_flatMap

theorem Definition.definitions_eq (d : Definition) :
    d.definitions = d :: Node.definitionsAll d.body := by
  cases d
  rw [Definition.definitions]

theorem Definition.mem_definitions_self (d : Definition) : d ∈ d.definitions := by
  rw [d.definitions_eq]
  exact List.mem_cons_self

mutual

/-- The functions in a tree are those that stand in it, each with all that is inside it. -/
theorem Expr.mem_definitions_iff {d : Definition} : ∀ e : Expr,
    d ∈ e.definitions ↔ ∃ outer, .function outer ∈ e.occurrences ∧ d ∈ outer.definitions
  | .number _ | .text _ | .variable _ => by simp [Expr.definitions, Expr.occurrences]
  | .binary _ l r => by
    simp [Expr.definitions, Expr.occurrences, Expr.mem_definitions_iff l,
      Expr.mem_definitions_iff r, or_and_right, exists_or]
  | .call _ arguments => by
    simp [Expr.definitions, Expr.occurrences, Expr.mem_definitionsAll_iff arguments]
  | .function outer => by simp [Expr.definitions, Expr.occurrences]

theorem Expr.mem_definitionsAll_iff {d : Definition} : ∀ es : List Expr,
    d ∈ Expr.definitionsAll es ↔
      ∃ outer, .function outer ∈ Expr.occurrencesAll es ∧ d ∈ outer.definitions
  | [] => by simp [Expr.definitionsAll, Expr.occurrencesAll]
  | e :: es => by
    simp [Expr.definitionsAll, Expr.occurrencesAll, Expr.mem_definitions_iff e,
      Expr.mem_definitionsAll_iff es, or_and_right, exists_or]

end

theorem Node.mem_definitions_iff {d : Definition} (n : Node) :
    d ∈ n.definitions ↔ ∃ outer, .function outer ∈ n.occurrences ∧ d ∈ outer.definitions := by
  cases n <;> simp [Node.definitions, Node.occurrences, Expr.mem_definitions_iff]

theorem Node.mem_definitionsAll_iff {d : Definition} (ns : List Node) :
    d ∈ Node.definitionsAll ns ↔
      ∃ outer, .function outer ∈ Node.occurrencesAll ns ∧ d ∈ outer.definitions := by
  unfold Node.occurrencesAll
  induction ns with
  | nil => simp [Node.definitionsAll]
  | cons n ns ih =>
    simp only [Node.definitionsAll, List.flatMap_cons, List.mem_append, ih,
      Node.mem_definitions_iff, or_and_right, exists_or]

/-- A function inside a body brings nothing that is not inside the body's function. -/
theorem Definition.definitions_subset {d inner : Definition}
    (h : .function inner ∈ Node.occurrencesAll d.body) :
    inner.definitions ⊆ d.definitions := by
  intro d' hd
  rw [d.definitions_eq]
  exact List.mem_cons_of_mem _ ((Node.mem_definitionsAll_iff d.body).mpr ⟨inner, h, hd⟩)

mutual

/-- What is inside a function of a tree is inside the tree. -/
theorem Expr.definitions_trans {d : Definition} : ∀ e : Expr, d ∈ e.definitions →
    d.definitions ⊆ e.definitions
  | .number _, h | .text _, h | .variable _, h => by simp [Expr.definitions] at h
  | .binary _ l r, h => by
    rw [Expr.definitions] at h ⊢
    rcases List.mem_append.mp h with h | h
    · exact List.subset_append_of_subset_left _ (l.definitions_trans h)
    · exact List.subset_append_of_subset_right _ (r.definitions_trans h)
  | .call _ arguments, h => by
    rw [Expr.definitions] at h ⊢
    exact Expr.definitionsAll_trans arguments h
  | .function outer, h => by
    rw [Expr.definitions] at h ⊢
    exact Definition.definitions_trans outer h

theorem Expr.definitionsAll_trans {d : Definition} : ∀ es : List Expr,
    d ∈ Expr.definitionsAll es → d.definitions ⊆ Expr.definitionsAll es
  | [], h => by simp [Expr.definitionsAll] at h
  | e :: es, h => by
    rw [Expr.definitionsAll] at h ⊢
    rcases List.mem_append.mp h with h | h
    · exact List.subset_append_of_subset_left _ (e.definitions_trans h)
    · exact List.subset_append_of_subset_right _ (Expr.definitionsAll_trans es h)

theorem Definition.definitions_trans {d : Definition} : ∀ outer : Definition,
    d ∈ outer.definitions → d.definitions ⊆ outer.definitions
  | ⟨name, parameters, body⟩, h => by
    rw [Definition.definitions] at h
    rcases List.mem_cons.mp h with rfl | h
    · exact List.Subset.refl _
    · rw [Definition.definitions_eq ⟨name, parameters, body⟩]
      exact List.subset_cons_of_subset _ (Node.definitionsAll_trans body h)

theorem Node.definitions_trans {d : Definition} : ∀ n : Node, d ∈ n.definitions →
    d.definitions ⊆ n.definitions
  | .declare _ _ e, h | .ret e, h | .expr e, h => by
    rw [Node.definitions] at h ⊢
    exact e.definitions_trans h

theorem Node.definitionsAll_trans {d : Definition} : ∀ ns : List Node,
    d ∈ Node.definitionsAll ns → d.definitions ⊆ Node.definitionsAll ns
  | [], h => by simp [Node.definitionsAll] at h
  | n :: ns, h => by
    rw [Node.definitionsAll] at h ⊢
    rcases List.mem_append.mp h with h | h
    · exact List.subset_append_of_subset_left _ (n.definitions_trans h)
    · exact List.subset_append_of_subset_right _ (Node.definitionsAll_trans ns h)

end

mutual

theorem Expr.declared_not_mem {name : String} : ∀ e : Expr, .declared name ∉ e.occurrences
  | .number _ | .text _ | .variable _ | .function _ => by simp [Expr.occurrences]
  | .binary _ l r => by
    simp [Expr.occurrences, Expr.declared_not_mem l, Expr.declared_not_mem r]
  | .call _ arguments => by simp [Expr.occurrences, Expr.declared_not_mem_all arguments]

theorem Expr.declared_not_mem_all {name : String} : ∀ es : List Expr,
    .declared name ∉ Expr.occurrencesAll es
  | [] => by simp [Expr.occurrencesAll]
  | e :: es => by
    simp [Expr.occurrencesAll, Expr.declared_not_mem e, Expr.declared_not_mem_all es]

end

/-- No function stands in the expression. -/
def Expr.Plain (e : Expr) : Prop :=
  ∀ d, .function d ∉ e.occurrences

/-- Where no function stands, names are looked up and nothing else is done. -/
theorem Expr.Plain.lookup? {e : Expr} (h : e.Plain) {o : Occurrence} (ho : o ∈ e.occurrences) :
    ∃ name, o.lookup? = some name := by
  match o, ho with
  | .variable name, _ | .callee name, _ => exact ⟨name, rfl⟩
  | .declared name, ho => exact absurd ho e.declared_not_mem
  | .function d, ho => exact absurd ho (h d)

theorem Expr.Plain.binds?_eq_none {e : Expr} (h : e.Plain) : (Node.expr e).binds? = none := by
  match e, h with
  | .function d, h => exact absurd (by simp [Expr.occurrences]) (h d)
  | .number _, _ | .text _, _ | .variable _, _ | .binary _ _ _, _ | .call _ _, _ => rfl

/-- A function stands in the node only if it is the node. -/
inductive Node.Plain : Node → Prop where
  | declare {form : Declarator} {name : String} {e : Expr} (h : e.Plain) :
      Plain (.declare form name e)
  | ret {e : Expr} (h : e.Plain) : Plain (.ret e)
  | expr {e : Expr} (h : e.Plain) : Plain (.expr e)
  | function (d : Definition) : Plain (.expr (.function d))

theorem Expr.Written.plain {e : Expr} (h : e.Written) : e.Plain := by
  intro d
  induction h with
  | number h => simp [Expr.occurrences]
  | text content => simp [Expr.occurrences]
  | name h => simp [Expr.occurrences]
  | call h ha ih =>
    intro hd
    rcases List.mem_cons.mp hd with hd | hd
    · cases hd
    · obtain ⟨a, hm, hd⟩ := Expr.mem_occurrencesAll_iff.mp hd
      exact ih a hm hd
  | binary op hl hb hr ihl ihr =>
    intro hd
    rcases List.mem_append.mp hd with hd | hd
    · exact ihl hd
    · exact ihr hd

theorem plain_of_parseExpr {ts : List Token} {e : Expr} (h : parseExpr ts = .ok e) : e.Plain :=
  (written_of_parseExpr h).1.plain

theorem Expr.Plain.definitions_eq_nil {e : Expr} (h : e.Plain) : e.definitions = [] := by
  apply List.eq_nil_iff_forall_not_mem.mpr
  intro d hd
  obtain ⟨outer, ho, _⟩ := (Expr.mem_definitions_iff e).mp hd
  exact h outer ho

/-- A unit that is not a function holds none. -/
theorem SimpleUnit.plain {u : List Token} {n : Node} (h : SimpleUnit u n) :
    n.Plain ∧ n.definitions = [] := by
  cases h with
  | declare form hn he =>
    have hp := plain_of_parseExpr he
    exact ⟨.declare hp, hp.definitions_eq_nil⟩
  | ret he =>
    have hp := plain_of_parseExpr he
    exact ⟨.ret hp, hp.definitions_eq_nil⟩
  | expr he =>
    have hp := plain_of_parseExpr he
    exact ⟨.expr hp, hp.definitions_eq_nil⟩

/-- In a program of the grammar, functions stand on their own. -/
theorem Derives.plain {ts : List Token} {p : Program} (h : Derives ts p) : ∀ n ∈ p, n.Plain := by
  induction h with
  | nil => simp
  | skip h ih => exact ih
  | unit hu h ih => exact List.forall_mem_cons.mpr ⟨hu.plain.1, ih⟩
  | last hu => exact List.forall_mem_cons.mpr ⟨hu.plain.1, by simp⟩
  | function hn hp hb h ihb ih => exact List.forall_mem_cons.mpr ⟨.function _, ih⟩

/-- The body of a function of the grammar is a program of the grammar. -/
theorem Derives.body {ts : List Token} {p : Program} (h : Derives ts p) {d : Definition}
    (hd : d ∈ Node.definitionsAll p) : ∃ ts', Derives ts' d.body := by
  induction h with
  | nil => cases hd
  | skip h ih => exact ih hd
  | unit hu h ih =>
    rw [Node.definitionsAll, hu.plain.2] at hd
    exact ih hd
  | last hu =>
    rw [Node.definitionsAll, hu.plain.2] at hd
    cases hd
  | @function name parameters body ts nodes ns hn hp hb h ihb ih =>
    rw [Node.definitionsAll, Node.definitions, Expr.definitions, Definition.definitions] at hd
    rcases List.mem_append.mp hd with hd | hd
    · rcases List.mem_cons.mp hd with rfl | hd
      · exact ⟨body, hb⟩
      · exact ihb hd
    · exact ih hd

/-- A function that is read in some program, at any depth. -/
def Definition.Parsed (d : Definition) : Prop :=
  ∃ ts p, parse ts = .ok p ∧ d ∈ Node.definitionsAll p

theorem Definition.Parsed.body {d : Definition} (h : d.Parsed) : ∃ ts, parse ts = .ok d.body := by
  obtain ⟨ts, p, hp, hd⟩ := h
  obtain ⟨ts', hb⟩ := (derives_of_parse hp).body hd
  exact ⟨ts', hb.parse⟩

theorem Definition.Parsed.inner {d inner : Definition} (h : d.Parsed)
    (hi : .function inner ∈ Node.occurrencesAll d.body) : inner.Parsed := by
  obtain ⟨ts, hp⟩ := h.body
  exact ⟨ts, d.body, hp,
    (Node.mem_definitionsAll_iff d.body).mpr ⟨inner, hi, inner.mem_definitions_self⟩⟩

end TinyScript
