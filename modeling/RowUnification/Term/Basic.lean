import RowUnification.SortedMap

/-!
# Terms with records and rows

A term is a variable or an application. An application has a functor,
positional subterms, fields under distinct labels, and possibly a row: a tail
that stands for further parts not named yet.

`Application` is generic in what stands in its part positions. One fold therefore
serves every bottom-up reading of a term: `fold_app` says that folding an
application folds its parts and combines the results, and `induct` is the
induction principle that belongs to it.
-/

namespace RowUnification

universe u v

/-- A functor applied to parts. -/
structure Application (τ : Type u) where
  /-- The functor; of a record, its key. -/
  functor : Name
  /-- The positional subterms, in order. -/
  subterms : List τ
  /-- The labelled subterms. -/
  fields : SortedMap τ none
  /-- The tail that stands for parts not named yet, if the application is open. -/
  row : Option τ
deriving DecidableEq

/-- A first-order term with records. -/
inductive Term where
  /-- A variable. -/
  | var (name : Name)
  /-- A functor applied to parts. -/
  | app (parts : Application Term)

namespace Application

variable {τ : Type u} {υ : Type v}

/-- An application with positional subterms only. -/
def ofSubterms (functor : Name) (subterms : List τ) : Application τ :=
  ⟨functor, subterms, .nil, none⟩

/-- Whether the application is its functor alone. -/
def isConstant (parts : Application τ) : Bool :=
  parts.subterms.isEmpty && parts.fields.isEmpty && parts.row.isNone

/-- Everything in a part position: the subterms, the field values by label, the row. -/
def children (parts : Application τ) : List τ :=
  parts.subterms ++ parts.fields.values ++ parts.row.toList

/-- The same functor and labels over transformed parts. -/
def map (transform : τ → υ) (parts : Application τ) : Application υ :=
  ⟨parts.functor, parts.subterms.map transform, parts.fields.map transform, parts.row.map transform⟩

@[simp] theorem children_map (transform : τ → υ) (parts : Application τ) :
    (parts.map transform).children = parts.children.map transform := by
  obtain ⟨functor, subterms, fields, row⟩ := parts
  cases row <;> simp [children, map]

end Application

namespace Term

variable {β : Type v}

mutual

/-- Reads a term bottom-up: a variable by its name, an application by its parts
already read. -/
def fold (variableCase : Name → β) (combine : Application β → β) : Term → β
  | var name => variableCase name
  | app ⟨functor, subterms, fields, row⟩ =>
    combine ⟨functor, foldSubterms variableCase combine subterms,
      foldFields variableCase combine fields, foldRow variableCase combine row⟩
termination_by structural term => term

/-- The folds of positional subterms. -/
def foldSubterms (variableCase : Name → β) (combine : Application β → β) : List Term → List β
  | [] => []
  | term :: rest => term.fold variableCase combine :: foldSubterms variableCase combine rest
termination_by structural terms => terms

/-- The folds of field values. -/
def foldFields (variableCase : Name → β) (combine : Application β → β) :
    {bound : Option Name} → SortedMap Term bound → SortedMap β bound
  | _, .nil => .nil
  | _, .cons label follows value rest =>
    .cons label follows (value.fold variableCase combine) (foldFields variableCase combine rest)
termination_by structural _ fields => fields

/-- The fold of a row. -/
def foldRow (variableCase : Name → β) (combine : Application β → β) : Option Term → Option β
  | none => none
  | some term => some (term.fold variableCase combine)
termination_by structural row => row

end

theorem foldSubterms_eq_map (variableCase : Name → β) (combine : Application β → β)
    (terms : List Term) :
    foldSubterms variableCase combine terms = terms.map (fold variableCase combine) := by
  induction terms with
  | nil => rfl
  | cons term rest inductionHypothesis => simp [foldSubterms, inductionHypothesis]

theorem foldFields_eq_map (variableCase : Name → β) (combine : Application β → β)
    {bound : Option Name} (fields : SortedMap Term bound) :
    foldFields variableCase combine fields = fields.map (fold variableCase combine) := by
  induction fields with
  | nil => rfl
  | cons label follows value rest inductionHypothesis =>
    simp [foldFields, SortedMap.map, inductionHypothesis]

theorem foldRow_eq_map (variableCase : Name → β) (combine : Application β → β)
    (row : Option Term) : foldRow variableCase combine row = row.map (fold variableCase combine) := by
  cases row <;> rfl

@[simp] theorem fold_var (variableCase : Name → β) (combine : Application β → β) (name : Name) :
    (var name).fold variableCase combine = variableCase name := rfl

/-- Folding an application folds its parts and combines the results. -/
@[simp] theorem fold_app (variableCase : Name → β) (combine : Application β → β)
    (parts : Application Term) :
    (app parts).fold variableCase combine =
      combine (parts.map (fold variableCase combine)) := by
  obtain ⟨functor, subterms, fields, row⟩ := parts
  simp only [fold, foldSubterms_eq_map, foldFields_eq_map, foldRow_eq_map, Application.map]

mutual

/-- What holds of the variables, and of an application whenever it holds of all
its parts, holds of every term. -/
theorem induct {motive : Term → Prop} (variableCase : ∀ name, motive (var name))
    (applicationCase : ∀ parts : Application Term,
      (∀ child ∈ parts.children, motive child) → motive (app parts)) :
    (term : Term) → motive term
  | var name => variableCase name
  | app ⟨functor, subterms, fields, row⟩ => applicationCase _ fun child member => by
    rcases List.mem_append.mp member with member | member
    · rcases List.mem_append.mp member with member | member
      · exact inductSubterms variableCase applicationCase subterms child member
      · exact inductFields variableCase applicationCase fields child member
    · exact inductRow variableCase applicationCase row child member
termination_by structural term => term

theorem inductSubterms {motive : Term → Prop} (variableCase : ∀ name, motive (var name))
    (applicationCase : ∀ parts : Application Term,
      (∀ child ∈ parts.children, motive child) → motive (app parts)) :
    (terms : List Term) → ∀ child ∈ terms, motive child
  | [], _, member => nomatch member
  | term :: rest, child, member => by
    rcases List.mem_cons.mp member with same | member
    · exact same ▸ induct variableCase applicationCase term
    · exact inductSubterms variableCase applicationCase rest child member
termination_by structural terms => terms

theorem inductFields {motive : Term → Prop} (variableCase : ∀ name, motive (var name))
    (applicationCase : ∀ parts : Application Term,
      (∀ child ∈ parts.children, motive child) → motive (app parts)) :
    {bound : Option Name} → (fields : SortedMap Term bound) →
      ∀ child ∈ fields.values, motive child
  | _, .nil, _, member => nomatch member
  | _, .cons _ _ value rest, child, member => by
    rcases List.mem_cons.mp member with same | member
    · exact same ▸ induct variableCase applicationCase value
    · exact inductFields variableCase applicationCase rest child member
termination_by structural _ fields => fields

theorem inductRow {motive : Term → Prop} (variableCase : ∀ name, motive (var name))
    (applicationCase : ∀ parts : Application Term,
      (∀ child ∈ parts.children, motive child) → motive (app parts)) :
    (row : Option Term) → ∀ child ∈ row.toList, motive child
  | none, _, member => nomatch member
  | some term, child, member => by
    exact (List.mem_singleton.mp member) ▸ induct variableCase applicationCase term
termination_by structural row => row

end

/-- The number of variables and applications in a term. -/
def size : Term → Nat :=
  fold (fun _ => 1) fun parts => parts.children.foldr (· + ·) 1

/-- The number of variables and applications in all terms of a list together. -/
def totalSize (terms : List Term) : Nat := terms.foldr (fun term total => term.size + total) 0

@[simp] theorem totalSize_nil : totalSize [] = 0 := rfl

@[simp] theorem totalSize_cons (term : Term) (rest : List Term) :
    totalSize (term :: rest) = term.size + totalSize rest := rfl

@[simp] theorem totalSize_append (first second : List Term) :
    totalSize (first ++ second) = totalSize first + totalSize second := by
  induction first with
  | nil => simp
  | cons term rest inductionHypothesis => simp [inductionHypothesis, Nat.add_assoc]

/-- An application is one more than its parts. -/
theorem size_app (parts : Application Term) : (app parts).size = totalSize parts.children + 1 := by
  have oneMore (terms : List Term) :
      (terms.map size).foldr (· + ·) 1 = totalSize terms + 1 := by
    induction terms with
    | nil => rfl
    | cons term rest inductionHypothesis => simp [inductionHypothesis, Nat.add_assoc]
  rw [← oneMore, ← Application.children_map]
  exact fold_app _ _ parts

theorem size_pos (term : Term) : 0 < term.size := by
  cases term with
  | var name => exact Nat.one_pos
  | app parts => exact size_app parts ▸ Nat.succ_pos _

/-- The row of an application; a variable has none. -/
def row? : Term → Option Term
  | var _ => none
  | app parts => parts.row

/-- The name of a variable. -/
def variableName? : Term → Option Name
  | var name => some name
  | app _ => none

end Term

end RowUnification
