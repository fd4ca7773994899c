import RowUnification.Proofs.Records
import RowUnification.Term.Order
import RowUnification.Term.Variables

/-!
# Laws of substitution

A substitution acts on the variables of a term and nothing else: two assignments
that agree on them have the same result, and each variable of the result comes
from the term of one of them. A field that a spliced row overrides takes its
variables along, so the second law is an inclusion only.

Substituting twice is substituting once by the composite assignment. Rows are no
exception, whatever stands in their place, by `spliceRow_map_subst`.

A term is flat if none of its rows is an application. Substituting flat terms
makes a flat term of any term, and a flat term without assigned variables is its
own result.
-/

namespace RowUnification

namespace Assignment

/-- Replaces by the first assignment and what results by the second. -/
def andThen (first second : Assignment) : Assignment := fun name =>
  match first name with
  | some term => some (term.subst second)
  | none => second name

end Assignment

namespace Term

/-- The only variable of a variable is itself. -/
@[simp] theorem mem_occurrences_var (name other : Name) :
    other ∈ (var name).occurrences ↔ other = name := by
  simp [occurrences]

/-- The variables of an application are listed part by part. -/
theorem occurrences_app (parts : Application Term) :
    (app parts).occurrences = parts.children.flatMap occurrences := by
  rw [List.flatMap_def, ← Application.children_map]
  exact fold_app _ _ parts

/-- The variables of an application are those of its parts. -/
theorem mem_occurrences_app (parts : Application Term) (name : Name) :
    name ∈ (app parts).occurrences ↔ ∃ child ∈ parts.children, name ∈ child.occurrences := by
  rw [occurrences_app, List.mem_flatMap]

/-- A variable occurs in an application exactly if it occurs in a part. -/
theorem occurrences_of_child (parts : Application Term) (child : Term)
    (member : child ∈ parts.children) (name : Name) (inside : name ∈ child.occurrences) :
    name ∈ (app parts).occurrences :=
  (mem_occurrences_app parts name).mpr ⟨child, member, inside⟩

/-- The search through a list of terms finds the variables of its members: taking
the parts of an application in its place changes neither side. -/
theorem occursAmong_iff (name : Name) (pending : List Term) :
    occursAmong name pending = true ↔ ∃ term ∈ pending, name ∈ term.occurrences := by
  fun_induction occursAmong name pending with
  | case1 => simp
  | case2 rest => simp
  | case3 other rest different inductionHypothesis =>
    simp [inductionHypothesis, Ne.symm different]
  | case4 parts rest inductionHypothesis =>
    simp only [inductionHypothesis, List.mem_cons, List.mem_append, or_and_right, exists_or,
      exists_eq_left, mem_occurrences_app]

/-- The occurs check finds exactly the variables of a term. -/
theorem occurs_iff (name : Name) (term : Term) :
    term.occurs name = true ↔ name ∈ term.occurrences := by
  simp [occurs, occursAmong_iff]

/-- A spliced row brings no variable that did not occur in it. -/
theorem mem_occurrences_of_mem_spliceRow (parts : Application Term) (name : Name)
    (inside : name ∈ (app parts.spliceRow).occurrences) : name ∈ (app parts).occurrences := by
  obtain ⟨child, member, occurs⟩ := (mem_occurrences_app _ name).mp inside
  rcases Application.mem_children_spliceRow parts child member with own | ⟨extension, row, moved⟩
  · exact occurrences_of_child parts child own name occurs
  · exact occurrences_of_child parts (app extension)
      ((Application.mem_children_iff parts _).mpr (Or.inr (Or.inr row))) name
      (occurrences_of_child extension child moved name occurs)

/-- Each variable of a result occurs in what replaced some variable of the term. -/
theorem mem_occurrences_subst (assignment : Assignment) (term : Term) (name : Name)
    (inside : name ∈ (term.subst assignment).occurrences) :
    ∃ source ∈ term.occurrences, name ∈ ((var source).subst assignment).occurrences := by
  induction term using Term.induct with
  | variableCase source => exact ⟨source, (mem_occurrences_var source source).mpr rfl, inside⟩
  | applicationCase parts inductionHypothesis =>
    rw [subst_app] at inside
    obtain ⟨replaced, member, occurs⟩ := (mem_occurrences_app _ name).mp
      (mem_occurrences_of_mem_spliceRow _ name inside)
    rw [Application.children_map] at member
    obtain ⟨child, original, rfl⟩ := List.mem_map.mp member
    obtain ⟨source, inChild, image⟩ := inductionHypothesis child original occurs
    exact ⟨source, occurrences_of_child parts child original source inChild, image⟩

/-- Assignments that agree on the variables of a term have the same result. -/
theorem subst_congr (first second : Assignment) (term : Term)
    (agree : ∀ name ∈ term.occurrences, (var name).subst first = (var name).subst second) :
    term.subst first = term.subst second := by
  induction term using Term.induct with
  | variableCase name => exact agree name ((mem_occurrences_var name name).mpr rfl)
  | applicationCase parts inductionHypothesis =>
    have sameParts : parts.map (subst first) = parts.map (subst second) :=
      Application.map_congr _ _ parts fun child member =>
        inductionHypothesis child member fun name inside =>
          agree name (occurrences_of_child parts child member name inside)
    rw [subst_app, subst_app, sameParts]

/-- Substituting by the second assignment after the first is one substitution. -/
theorem subst_subst (first second : Assignment) (term : Term) :
    (term.subst first).subst second = term.subst (first.andThen second) := by
  induction term using Term.induct with
  | variableCase name =>
    simp only [subst_var, Assignment.andThen]
    cases first name <;> rfl
  | applicationCase parts inductionHypothesis =>
    have sameParts : (parts.map (subst first)).map (subst second) =
        parts.map (subst (first.andThen second)) :=
      (Application.map_map _ _ parts).trans
        (Application.map_congr _ _ parts inductionHypothesis)
    rw [subst_app, subst_app, subst_app, ← sameParts, Application.spliceRow_map_subst]

/-- Let a third assignment have, for each variable of the first one, its term as the second one
replaces it, and for every other variable what the second one has. It makes of every term in one
pass what the two make of it one after the other, also where rows are applications or become
applications in either pass. -/
theorem subst_by_composite (first second composite : Assignment) (term : Term)
    (assigned : ∀ name value, first name = some value →
      composite name = some (value.subst second))
    (others : ∀ name, first name = none → composite name = second name) :
    term.subst composite = (term.subst first).subst second := by
  have same : composite = first.andThen second := by
    funext name
    cases found : first name with
    | none =>
      rw [others name found]
      simp only [Assignment.andThen, found]
    | some value =>
      rw [assigned name value found]
      simp only [Assignment.andThen, found]
  rw [same, subst_subst]

/-- `Box(width: w | Box(depth: d | r))`: the row is an application before any variable is
replaced. -/
def nestedBox : Term :=
  .app ⟨.symbol "Box", [], .ofList [(.symbol "width", .var (.symbol "w"))],
    some (.app ⟨.symbol "Box", [], .ofList [(.symbol "depth", .var (.symbol "d"))],
      some (.var (.symbol "r"))⟩)⟩

/-- `d` is `w`, and `r` is `Box(u, label: w | s)`. -/
def firstFilling : NameMap Term :=
  .ofList [(.symbol "d", .var (.symbol "w")),
    (.symbol "r", .app ⟨.symbol "Box", [.var (.symbol "u")],
      .ofList [(.symbol "label", .var (.symbol "w"))], some (.var (.symbol "s"))⟩)]

/-- `s` is `Box(width: Unit)`, and `w` is `d`. -/
def secondFilling : NameMap Term :=
  .ofList [(.symbol "s", .app ⟨.symbol "Box", [],
      .ofList [(.symbol "width", .app (.ofSubterms (.symbol "Unit") []))], none⟩),
    (.symbol "w", .var (.symbol "d"))]

/-- The row of the nested box is an application at once, its own row becomes one in the first
pass and the row of that one in the second, where the last field overrides the first. One pass
by the composite map makes the same box. -/
theorem subst_by_composite_nestedBox :
    nestedBox.subst (.ofMap (secondFilling.merge
        (firstFilling.map (subst (.ofMap secondFilling))))) =
      (nestedBox.subst (.ofMap firstFilling)).subst (.ofMap secondFilling) ∧
    (nestedBox.subst (.ofMap firstFilling)).subst (.ofMap secondFilling) =
      .app ⟨.symbol "Box", [.var (.symbol "u")],
        .ofList [(.symbol "depth", .var (.symbol "d")), (.symbol "label", .var (.symbol "d")),
          (.symbol "width", .app (.ofSubterms (.symbol "Unit") []))], none⟩ := by
  constructor
  · apply subst_by_composite
    · intro name value found
      simp only [Assignment.ofMap] at found ⊢
      rw [SortedMap.get?_merge, SortedMap.get?_map, found]
      rfl
    · intro name missing
      simp only [Assignment.ofMap] at missing ⊢
      rw [SortedMap.get?_merge, SortedMap.get?_map, missing]
      rfl
  · decide +kernel

/-- If replacing by the second assignment undoes what the first one made of each
variable, it does so for every term. -/
theorem subst_subst_eq_of_var (first second third : Assignment) (term : Term)
    (onVariables : ∀ name ∈ term.occurrences,
      ((var name).subst first).subst second = (var name).subst third) :
    (term.subst first).subst second = term.subst third := by
  rw [subst_subst]
  apply subst_congr
  intro name inside
  rw [← subst_subst]
  exact onVariables name inside

/-- No row of a flat term is an application. -/
inductive Flat : Term → Prop
  /-- A variable has no row. -/
  | var (name : Name) : Flat (var name)
  /-- The parts are flat, and the row, if there is one, is a variable. -/
  | app (parts : Application Term) (children : ∀ child ∈ parts.children, Flat child)
      (row : parts.row = none ∨ ∃ name, parts.row = some (.var name)) : Flat (app parts)

/-- The parts of a flat application are flat. -/
theorem Flat.children {parts : Application Term} (flat : Flat (.app parts)) :
    ∀ child ∈ parts.children, Flat child := by
  cases flat with
  | app _ children _ => exact children

/-- The row of a flat application is a variable, if there is one. -/
theorem Flat.row {parts : Application Term} (flat : Flat (.app parts)) :
    parts.row = none ∨ ∃ name, parts.row = some (.var name) := by
  cases flat with
  | app _ _ row => exact row

/-- There is nothing to splice in a flat application. -/
theorem Flat.spliceRow_eq {parts : Application Term} (flat : Flat (.app parts)) :
    parts.spliceRow = parts := by
  rcases flat.row with closed | ⟨name, variableRow⟩
  · exact parts.spliceRow_of_row_none closed
  · exact parts.spliceRow_of_row_var name variableRow

/-- Splicing a row that is flat leaves no application as the row. -/
theorem flat_spliceRow (parts : Application Term)
    (children : ∀ child ∈ parts.children, Flat child) : Flat (app parts.spliceRow) := by
  match rowShape : parts.row with
  | none =>
    rw [parts.spliceRow_of_row_none rowShape]
    exact .app parts children (Or.inl rowShape)
  | some (.var name) =>
    rw [parts.spliceRow_of_row_var name rowShape]
    exact .app parts children (Or.inr ⟨name, rowShape⟩)
  | some (.app extension) =>
    have rowFlat : Flat (app extension) :=
      children _ ((Application.mem_children_iff parts _).mpr (Or.inr (Or.inr rowShape)))
    refine .app _ (fun child member => ?_) ?_
    · rcases Application.mem_children_spliceRow parts child member with own | ⟨inner, same, moved⟩
      · exact children child own
      · have unique : extension = inner := by simpa [rowShape] using same
        exact rowFlat.children child (unique ▸ moved)
    · rw [parts.spliceRow_of_row_app extension rowShape]
      exact rowFlat.row

/-- Substituting flat terms makes every term flat: a row that becomes an
application is spliced, and its own row is a variable. -/
theorem flat_subst (assignment : Assignment) (term : Term)
    (values : ∀ name value, assignment name = some value → Flat value) :
    Flat (term.subst assignment) := by
  induction term using Term.induct with
  | variableCase name =>
    rw [subst_var]
    cases assigned : assignment name with
    | none => exact .var name
    | some value => exact values name value assigned
  | applicationCase parts inductionHypothesis =>
    rw [subst_app]
    apply flat_spliceRow
    intro replaced member
    rw [Application.children_map] at member
    obtain ⟨child, original, rfl⟩ := List.mem_map.mp member
    exact inductionHypothesis child original

/-- A flat term without assigned variables is its own result. -/
theorem subst_eq_self_of_flat (assignment : Assignment) (term : Term) (flat : Flat term)
    (unassigned : ∀ name ∈ term.occurrences, assignment name = none) :
    term.subst assignment = term := by
  induction term using Term.induct with
  | variableCase name =>
    rw [subst_var, unassigned name ((mem_occurrences_var name name).mpr rfl)]
    rfl
  | applicationCase parts inductionHypothesis =>
    have sameParts : parts.map (subst assignment) = parts :=
      Application.map_eq_self _ parts fun child member =>
        inductionHypothesis child member (flat.children child member) fun name inside =>
          unassigned name (occurrences_of_child parts child member name inside)
    rw [subst_app, sameParts, flat.spliceRow_eq]

/-- Replacing nothing keeps exactly the flat terms. -/
theorem subst_ofMap_nil_eq_self_iff (term : Term) :
    term.subst (.ofMap .nil) = term ↔ term.Flat := by
  constructor
  · intro kept
    have flattened : (term.subst (.ofMap .nil)).Flat := by
      apply flat_subst
      intro name value found
      exact nomatch found
    exact kept ▸ flattened
  · intro flat
    exact subst_eq_self_of_flat _ term flat fun _ _ => rfl

/-- Whether a term is flat shows in whether it stays as it is when nothing is replaced. -/
instance decidableFlat (term : Term) : Decidable term.Flat :=
  decidable_of_iff _ (subst_ofMap_nil_eq_self_iff term)

/-- One pass brings every term into flat form if the assigned terms are flat, however long its
chains of nested rows are and whether they are there from the start or come from the assigned
terms. Terms in flat form are exactly those that a pass which replaces nothing leaves as they
are, and a pass does not touch them unless it assigns one of their variables. -/
theorem subst_flattens (assignment : Assignment) (term : Term) :
    ((∀ name value, assignment name = some value → value.Flat) →
      (term.subst assignment).Flat) ∧
    (term.subst (.ofMap .nil) = term ↔ term.Flat) ∧
    (term.Flat → (∀ name value, assignment name = some value → name ∉ term.occurrences) →
      term.subst assignment = term) := by
  refine ⟨?_, subst_ofMap_nil_eq_self_iff term, ?_⟩
  · intro values
    exact flat_subst assignment term values
  · intro flat absent
    apply subst_eq_self_of_flat assignment term flat
    intro name inside
    cases assigned : assignment name with
    | none => rfl
    | some value => exact absurd inside (absent name value assigned)

/-- The nested box has an application as its row and gets another one in the place of `r`. One
pass leaves no trace of either, while replacing nothing would already change the box; a second
pass finds nothing to replace. -/
theorem subst_flattens_nestedBox :
    ¬ nestedBox.Flat ∧ (nestedBox.subst (.ofMap firstFilling)).Flat ∧
    nestedBox.subst (.ofMap .nil) ≠ nestedBox ∧
    (nestedBox.subst (.ofMap firstFilling)).subst (.ofMap firstFilling) =
      nestedBox.subst (.ofMap firstFilling) := by
  have values (name : Name) (value : Term) (assigned : firstFilling.get? name = some value) :
      value.Flat := by
    have allFlat : ∀ value ∈ firstFilling.values, value.Flat := by decide +kernel
    exact allFlat value ((SortedMap.mem_values_iff _ _).mpr ⟨name, assigned⟩)
  have keys (name : Name) (value : Term) (assigned : firstFilling.get? name = some value) :
      name ∉ (nestedBox.subst (.ofMap firstFilling)).occurrences := by
    have absent : ∀ name ∈ firstFilling.keys,
        name ∉ (nestedBox.subst (.ofMap firstFilling)).occurrences := by decide +kernel
    exact absent name ((SortedMap.mem_keys_iff _ _).mpr ⟨value, assigned⟩)
  have nested : ¬ nestedBox.Flat := by decide +kernel
  obtain ⟨flattens, unchanged, -⟩ := subst_flattens (.ofMap firstFilling) nestedBox
  obtain ⟨-, -, settled⟩ :=
    subst_flattens (.ofMap firstFilling) (nestedBox.subst (.ofMap firstFilling))
  have flat := flattens values
  exact ⟨nested, flat, fun same => nested (unchanged.mp same), settled flat keys⟩

end Term

end RowUnification
