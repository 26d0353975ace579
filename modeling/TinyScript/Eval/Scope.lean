import TinyScript.Eval.Error

/-!
Scopes bind names to values, each name at most once. The top level has one scope; every call of a
function has its own, which starts with the parameters.
-/

namespace TinyScript

/-- The newest binding stands first. -/
@[ext]
structure Scope where
  bindings : List (String × Value)
  nodup : (bindings.map Prod.fst).Nodup

namespace Scope

def empty : Scope :=
  ⟨[], List.nodup_nil⟩

instance : Inhabited Scope :=
  ⟨empty⟩

def get? (s : Scope) (name : String) : Option Value :=
  s.bindings.lookup name

def contains (s : Scope) (name : String) : Bool :=
  (s.get? name).isSome

def size (s : Scope) : Nat :=
  s.bindings.length

def isEmpty (s : Scope) : Bool :=
  s.bindings.isEmpty

/-- Two scopes are alike if they bind the same names to the same values, in whatever order. -/
def alike (s t : Scope) : Bool :=
  s.size = t.size && s.bindings.all fun (name, v) => t.get? name = some v

theorem mem_keys_iff {s : Scope} {name : String} :
    name ∈ s.bindings.map Prod.fst ↔ s.contains name = true := by
  obtain ⟨bindings, nodup⟩ := s
  unfold contains get?
  dsimp only
  clear nodup
  induction bindings with
  | nil => simp
  | cons b bs ih =>
    obtain ⟨key, v⟩ := b
    rw [List.map_cons, List.mem_cons, List.lookup_cons]
    by_cases h : name = key
    · simp [h]
    · simp [h, beq_eq_false_iff_ne.mpr h, ih]

/-- Binds a new name. -/
def declare (s : Scope) (name : String) (v : Value) : Except EvalError Scope :=
  if h : s.contains name then .error (.alreadyBound name)
  else .ok ⟨(name, v) :: s.bindings,
    List.nodup_cons.mpr ⟨fun hm => h (mem_keys_iff.mp hm), s.nodup⟩⟩

/-- Binds names in order, up to the first that is bound already. -/
def declareAll (s : Scope) : List (String × Value) → Except EvalError Scope
  | [] => .ok s
  | (name, v) :: rest => do (← s.declare name v).declareAll rest

/-- The scope in which a function's body starts. -/
def frame (d : Definition) (arguments : List Value) : Except EvalError Scope :=
  if arguments.length = d.arity then empty.declareAll (d.parameters.zip arguments)
  else .error (.wrongArity d.name arguments.length d.arity)

theorem declare_of_contains {s : Scope} {name : String} (h : s.contains name = true) (v : Value) :
    s.declare name v = .error (.alreadyBound name) := by
  simp [declare, h]

theorem declare_of_not_contains {s : Scope} {name : String} (h : s.contains name = false)
    (v : Value) : ∃ t, s.declare name v = .ok t ∧ t.bindings = (name, v) :: s.bindings := by
  simp [declare, h]

theorem bindings_of_declare {s t : Scope} {name : String} {v : Value}
    (h : s.declare name v = .ok t) :
    s.contains name = false ∧ t.bindings = (name, v) :: s.bindings := by
  unfold declare at h
  split at h
  · cases h
  · rename_i hc
    cases h
    exact ⟨by simpa using hc, rfl⟩

theorem get?_of_declare {s t : Scope} {name : String} {v : Value}
    (h : s.declare name v = .ok t) (other : String) :
    t.get? other = if other = name then some v else s.get? other := by
  rw [get?, (bindings_of_declare h).2, List.lookup_cons]
  by_cases ho : other = name
  · simp [ho]
  · simp [ho, beq_eq_false_iff_ne.mpr ho, get?]

/-- What holds of all bindings, and of a new one, holds of all bindings then. -/
theorem forall_of_declare {s t : Scope} {good : String → Value → Prop} {name : String} {v : Value}
    (h : ∀ other w, s.get? other = some w → good other w) (hv : good name v)
    (hd : s.declare name v = .ok t) : ∀ other w, t.get? other = some w → good other w := by
  intro other w hw
  rw [get?_of_declare hd] at hw
  by_cases ho : other = name
  · rw [if_pos ho] at hw
    cases hw
    rw [ho]
    exact hv
  · rw [if_neg ho] at hw
    exact h other w hw

theorem size_of_declare {s t : Scope} {name : String} {v : Value}
    (h : s.declare name v = .ok t) : t.size = s.size + 1 := by
  rw [size, (bindings_of_declare h).2, List.length_cons, size]

theorem mem_of_get? {s : Scope} {name : String} {v : Value} (h : s.get? name = some v) :
    (name, v) ∈ s.bindings := by
  obtain ⟨before, behind, hb, _⟩ := List.lookup_eq_some_iff.mp h
  simp [hb]

theorem bindings_of_declareAll {s t : Scope} {bindings : List (String × Value)}
    (h : s.declareAll bindings = .ok t) : t.bindings = bindings.reverse ++ s.bindings := by
  induction bindings generalizing s with
  | nil =>
    cases h
    rfl
  | cons b rest ih =>
    obtain ⟨name, v⟩ := b
    rw [declareAll] at h
    cases hd : s.declare name v with
    | error e =>
      rw [hd] at h
      cases h
    | ok s' =>
      rw [hd] at h
      rw [ih h, (bindings_of_declare hd).2]
      simp

/-- Binding names in order fails only if one of them is there twice. -/
theorem declareAll_eq_error {s : Scope} {bindings : List (String × Value)} {e : EvalError}
    (h : s.declareAll bindings = .error e) :
    (∃ name, e = .alreadyBound name) ∧
      ¬ (s.bindings.map Prod.fst ++ bindings.map Prod.fst).Nodup := by
  induction bindings generalizing s with
  | nil => cases h
  | cons b rest ih =>
    obtain ⟨name, v⟩ := b
    rw [declareAll] at h
    cases hc : s.contains name with
    | true =>
      rw [declare_of_contains hc] at h
      cases h
      refine ⟨⟨name, rfl⟩, fun hn => ?_⟩
      exact (List.nodup_append.mp hn).2.2 name (mem_keys_iff.mpr hc) name (by simp) rfl
    | false =>
      obtain ⟨s', hd, hb⟩ := declare_of_not_contains hc v
      rw [hd] at h
      obtain ⟨he, hn⟩ := ih h
      refine ⟨he, fun hall => hn ?_⟩
      rw [hb]
      exact List.perm_middle.nodup_iff.mp hall

theorem bindings_of_frame {d : Definition} {arguments : List Value} {s : Scope}
    (h : frame d arguments = .ok s) :
    arguments.length = d.parameters.length ∧
      s.bindings = (d.parameters.zip arguments).reverse := by
  unfold frame at h
  split at h
  · rename_i hl
    refine ⟨hl, ?_⟩
    rw [bindings_of_declareAll h]
    exact List.append_nil _
  · cases h

theorem frame_eq_error {d : Definition} {arguments : List Value} {e : EvalError}
    (h : frame d arguments = .error e) :
    e = .wrongArity d.name arguments.length d.arity ∨
      (∃ name, e = .alreadyBound name) ∧ ¬ d.parameters.Nodup := by
  unfold frame at h
  split at h
  · rename_i hl
    obtain ⟨he, hn⟩ := declareAll_eq_error h
    refine .inr ⟨he, fun hd => hn ?_⟩
    rw [List.map_fst_zip (Nat.le_of_eq hl.symm)]
    exact hd
  · cases h
    exact .inl rfl

/-- The scope of a call binds its parameters and nothing else. -/
theorem contains_frame_iff {d : Definition} {arguments : List Value} {s : Scope}
    (h : frame d arguments = .ok s) {name : String} :
    s.contains name = true ↔ name ∈ d.parameters := by
  obtain ⟨hl, hb⟩ := bindings_of_frame h
  rw [← mem_keys_iff, hb, List.map_reverse, List.mem_reverse,
    List.map_fst_zip (Nat.le_of_eq hl.symm)]

theorem mem_of_get?_frame {d : Definition} {arguments : List Value} {s : Scope}
    (h : frame d arguments = .ok s) {name : String} {v : Value} (hv : s.get? name = some v) :
    name ∈ d.parameters ∧ v ∈ arguments := by
  have hm := mem_of_get? hv
  rw [(bindings_of_frame h).2, List.mem_reverse] at hm
  exact List.of_mem_zip hm

end Scope

end TinyScript
