import RowUnification.Proofs.RowRoles

/-!
# Rows that never overwrite a field

A spliced row wins over the fields of its owner, so a row variable that stands beside
different labels in different places, or that is used for a whole term as well, may silently
replace a field. Callers rule this out by a discipline on the terms they write: every row is
a variable that occurs as a row only, and it stands beside the same labels everywhere.

The discipline gives every variable a role. Solving keeps to the roles whether it succeeds or
not, so resolving an application of the callers' terms never adds a subterm to it and never
overwrites one of its fields. The roles of the tails made on the way need no discipline: each
follows from the records that it was made for.
-/

namespace RowUnification

namespace Term

/-- The first term has the second one at some depth, or is that term. -/
inductive Contains : Term → Term → Prop
  /-- A term has itself. -/
  | self (term : Term) : Contains term term
  /-- An application has what its parts have. -/
  | part (parts : Application Term) (child term : Term) (member : child ∈ parts.children)
      (inside : Contains child term) : Contains (.app parts) term

/-- A part of a term within another one is within that one. -/
theorem Contains.child {term : Term} {parts : Application Term}
    (inside : term.Contains (.app parts)) (child : Term) (member : child ∈ parts.children) :
    term.Contains child := by
  generalize whole : Term.app parts = inner at inside
  induction inside with
  | self =>
    subst whole
    exact .part parts child child member (.self child)
  | part outer between _ listed _ inductionHypothesis =>
    exact .part outer between child listed (inductionHypothesis whole)

/-- A variable has no part but itself. -/
theorem contains_var_iff (name : Name) (term : Term) :
    (var name).Contains term ↔ term = var name := by
  constructor
  · intro inside
    cases inside
    rfl
  · rintro rfl
    exact .self _

/-- An application has itself and what its parts have. -/
theorem contains_app_iff (parts : Application Term) (term : Term) :
    (app parts).Contains term ↔
      term = app parts ∨ ∃ child ∈ parts.children, child.Contains term := by
  constructor
  · intro inside
    cases inside with
    | self => exact Or.inl rfl
    | part _ child _ member within => exact Or.inr ⟨child, member, within⟩
  · rintro (rfl | ⟨child, member, within⟩)
    · exact .self _
    · exact .part parts child term member within

/-- A variable within a term is one of its variables. -/
theorem mem_occurrences_of_contains {term : Term} {name : Name}
    (inside : term.Contains (.var name)) : name ∈ term.occurrences := by
  generalize isVar : var name = inner at inside
  induction inside with
  | self =>
    subst isVar
    exact (mem_occurrences_var name name).mpr rfl
  | part parts child _ member _ inductionHypothesis =>
    exact occurrences_of_child parts child member name (inductionHypothesis isVar)

end Term

/-- One of the terms has the application at some depth. -/
def AppliedIn (hosts : Set Term) (parts : Application Term) : Prop :=
  ∃ host ∈ hosts, host.Contains (.app parts)

/-- The variable is the row of an application in one of the terms. -/
def UsedAsRow (hosts : Set Term) (name : Name) : Prop :=
  ∃ parts, AppliedIn hosts parts ∧ parts.row = some (.var name)

/-- How callers use rows in the terms that they write. -/
structure RowDiscipline (hosts : Set Term) : Prop where
  /-- All variables are symbols. -/
  symbols : ∀ host ∈ hosts, ∀ name ∈ host.occurrences, ∃ text, name = .symbol text
  /-- Every row is a variable. -/
  variableRows : ∀ parts row, AppliedIn hosts parts → parts.row = some row → ∃ name, row = .var name
  /-- A variable used as a row is no term of its own. -/
  noTerm : ∀ name, UsedAsRow hosts name → .var name ∉ hosts
  /-- Nor is it a subterm or a field. -/
  noPart : ∀ name parts, UsedAsRow hosts name → AppliedIn hosts parts →
    .var name ∉ parts.subterms ∧ .var name ∉ parts.fields.values
  /-- A variable stands beside the same labels wherever it is the row. -/
  labels : ∀ name first second, AppliedIn hosts first → AppliedIn hosts second →
    first.row = some (.var name) → second.row = some (.var name) →
      first.fields.keys = second.fields.keys

/-- The engines that solving equations of the given terms leads to from an engine without bindings
whose row extension makes new row variables. -/
inductive Engine.DrivenBy (hosts : Set Term) : Engine → Prop
  /-- Nothing has been asked. -/
  | start (trace : Bool) :
      DrivenBy hosts (.start .empty (some RowExtension.withNewRow) trace)
  /-- An equation of these terms has been solved, or has failed. -/
  | unify (engine : Engine) (budget : Nat) (equation : Equation) (report : Report)
      (driven : DrivenBy hosts engine) (lhs : equation.lhs ∈ hosts) (rhs : equation.rhs ∈ hosts)
      (answered : engine.unify budget equation = some report) : DrivenBy hosts report.engine
  /-- Equations of these terms have been solved in order, as far as they could be. -/
  | solve (engine : Engine) (budget : Nat) (equations : List Equation) (report : Report)
      (driven : DrivenBy hosts engine)
      (sides : ∀ equation ∈ equations, equation.lhs ∈ hosts ∧ equation.rhs ∈ hosts)
      (answered : engine.solve budget equations = some report) : DrivenBy hosts report.engine

section Roles

variable {hosts : Set Term}

open Classical in
/-- The roles that the terms give to their variables: a row completes the records that it stands
in, and all other symbols stand for whole terms. -/
noncomputable def hostRoles (hosts : Set Term) : Roles
  | .fresh _ => none
  | .symbol text =>
    if UsedAsRow hosts (.symbol text) then
      some (.rest {label | ∃ parts, AppliedIn hosts parts ∧
        parts.row = some (.var (.symbol text)) ∧ label ∈ parts.labels})
    else some .whole

namespace RowDiscipline

/-- A row has the role to complete any of the records that it stands in: all have the same
labels. -/
theorem hostRoles_of_row (discipline : RowDiscipline hosts) {parts : Application Term}
    {name : Name} (applied : AppliedIn hosts parts) (row : parts.row = some (.var name)) :
    hostRoles hosts name = some (.rest parts.labels) := by
  obtain ⟨host, member, inside⟩ := applied
  have within : host.Contains (.var name) :=
    inside.child _ ((Application.mem_children_iff parts _).mpr (Or.inr (Or.inr row)))
  obtain ⟨text, rfl⟩ :=
    discipline.symbols host member name (Term.mem_occurrences_of_contains within)
  rw [hostRoles, if_pos ⟨parts, ⟨host, member, inside⟩, row⟩]
  refine congrArg (fun labels => some (Role.rest labels)) (Set.ext fun label => ?_)
  constructor
  · rintro ⟨other, otherApplied, otherRow, present⟩
    have same := discipline.labels _ other parts otherApplied ⟨host, member, inside⟩ otherRow row
    exact Application.labels_eq_of_keys_eq same ▸ present
  · exact fun present => ⟨parts, ⟨host, member, inside⟩, row, present⟩

/-- What the terms have at some depth are whole terms, except for the rows.

The induction is on the term. The row of an application is a variable, and its subterms and
fields are no rows. -/
theorem fits (discipline : RowDiscipline hosts) {host : Term} (member : host ∈ hosts) (term : Term)
    (inside : host.Contains term) (noRow : ∀ name, term = .var name → ¬ UsedAsRow hosts name) :
    term.Fits (hostRoles hosts) .whole := by
  induction term using Term.induct with
  | variableCase name =>
    obtain ⟨text, rfl⟩ :=
      discipline.symbols host member name (Term.mem_occurrences_of_contains inside)
    exact .var _ _ (if_neg (noRow _ rfl))
  | applicationCase parts inductionHypothesis =>
    have applied : AppliedIn hosts parts := ⟨host, member, inside⟩
    refine .app .whole parts (fun isRest => absurd rfl isRest) nofun ?_ ?_
    · intro child listed
      have isChild := (Application.mem_children_iff parts child).mpr (listed.imp_right Or.inl)
      refine inductionHypothesis child isChild (inside.child child isChild) ?_
      rintro name rfl asRow
      obtain ⟨noSubterm, noField⟩ := discipline.noPart name parts asRow applied
      exact listed.elim noSubterm noField
    · intro row opened
      obtain ⟨name, rfl⟩ := discipline.variableRows parts row applied opened
      rw [Role.labels, Set.empty_union]
      exact .var _ name (discipline.hostRoles_of_row applied opened)

/-- The terms themselves are whole terms. -/
theorem fits_host (discipline : RowDiscipline hosts) {host : Term} (member : host ∈ hosts) :
    host.Fits (hostRoles hosts) .whole := by
  refine discipline.fits member host (.self host) ?_
  rintro name rfl asRow
  exact discipline.noTerm name asRow member

end RowDiscipline

/-- Engines driven by disciplined terms are disciplined: the terms give roles to their variables,
and the tails made on the way have theirs. -/
theorem Engine.DrivenBy.disciplined {engine : Engine} (driven : engine.DrivenBy hosts)
    (discipline : RowDiscipline hosts) :
    ∃ roles, (hostRoles hosts).ExtendedBy roles ∧ engine.Disciplined roles := by
  have fits {roles : Roles} (extended : (hostRoles hosts).ExtendedBy roles) (equation : Equation)
      (sides : equation.lhs ∈ hosts ∧ equation.rhs ∈ hosts) : equation.Fits roles :=
    ⟨.whole, (discipline.fits_host sides.1).mono extended,
      (discipline.fits_host sides.2).mono extended⟩
  induction driven with
  | start trace =>
    exact ⟨hostRoles hosts, fun _ _ known => known, .empty, Or.inr rfl, nofun, fun _ _ => rfl⟩
  | unify engine budget equation report _ lhs rhs answered inductionHypothesis =>
    obtain ⟨roles, near, disciplined⟩ := inductionHypothesis
    obtain ⟨larger, far, still⟩ :=
      unify_disciplined disciplined (fits near equation ⟨lhs, rhs⟩) answered
    exact ⟨larger, near.trans far, still⟩
  | solve engine budget equations report _ sides answered inductionHypothesis =>
    obtain ⟨roles, near, disciplined⟩ := inductionHypothesis
    obtain ⟨larger, far, still⟩ := solve_disciplined disciplined
      (fun equation member => fits near equation (sides equation member)) answered
    exact ⟨larger, near.trans far, still⟩

end Roles

/-- Take terms whose rows are disciplined, and an engine that starts without bindings, makes new
row variables and is asked to solve equations of these terms only. Whatever the calls so far have
come to, an application at any depth of these terms resolves to an application with exactly its
own subterms, resolved, and with its own value, resolved, under each of its labels: splicing rows
never adds a subterm and never overwrites a field. -/
theorem rows_never_overwrite (hosts : Set Term) (discipline : RowDiscipline hosts)
    (engine : Engine) (driven : engine.DrivenBy hosts) (parts : Application Term)
    (applied : AppliedIn hosts parts) :
    ∃ resolved, engine.store.apply (.app parts) = .app resolved ∧
      resolved.subterms = parts.subterms.map engine.store.apply ∧
      ∀ label value, parts.fields.get? label = some value →
        resolved.fields.get? label = some (engine.store.apply value) := by
  obtain ⟨roles, extended, disciplined⟩ := driven.disciplined discipline
  obtain ⟨host, member, inside⟩ := applied
  have fits := (discipline.fits member (.app parts) inside nofun).mono extended
  have mapped := fits.map engine.store.apply fun child _ role childFits =>
    childFits.subst disciplined.respects
  obtain ⟨subterms, fields⟩ := mapped.parts_spliceRow
  refine ⟨_, Term.subst_app engine.store.lookup? parts, subterms, fun label value found => ?_⟩
  refine fields label _ ?_
  rw [Application.map, SortedMap.get?_map, found]
  rfl

/-- A box with one field: its label, the variable under it and the row. -/
def openBox (side : String × String × String) : Application Term :=
  ⟨.symbol "Box", [], .ofList [(.symbol side.1, .var (.symbol side.2.1))],
    some (.var (.symbol side.2.2))⟩

/-- The fields and rows of three boxes. -/
def boxSides : List (String × String × String) :=
  [("width", "w", "r"), ("depth", "d", "s"), ("height", "h", "t")]

/-- The three boxes. -/
def openBoxes : Set Term := {host | ∃ side ∈ boxSides, host = .app (openBox side)}

/-- A box has no application but itself. -/
theorem appliedIn_openBoxes {parts : Application Term} (applied : AppliedIn openBoxes parts) :
    ∃ side ∈ boxSides, parts = openBox side := by
  obtain ⟨host, ⟨side, listed, rfl⟩, inside⟩ := applied
  have children : (openBox side).children =
      [.var (.symbol side.2.1), .var (.symbol side.2.2)] := rfl
  rw [Term.contains_app_iff, children] at inside
  simp only [List.mem_cons, List.not_mem_nil, or_false, exists_eq_or_imp, exists_eq_left,
    Term.contains_var_iff, reduceCtorEq, Term.app.injEq] at inside
  exact ⟨side, listed, inside⟩

/-- Each of the boxes has its own row, and no row is a field. -/
theorem rowDiscipline_openBoxes : RowDiscipline openBoxes where
  symbols := by
    rintro host ⟨side, -, rfl⟩ name inside
    obtain ⟨child, member, here⟩ := (Term.mem_occurrences_app _ name).mp inside
    have children : (openBox side).children =
        [.var (.symbol side.2.1), .var (.symbol side.2.2)] := rfl
    rw [children, List.mem_cons, List.mem_singleton] at member
    rcases member with rfl | rfl
    · exact ⟨_, (Term.mem_occurrences_var _ name).mp here⟩
    · exact ⟨_, (Term.mem_occurrences_var _ name).mp here⟩
  variableRows := by
    intro parts row applied opened
    obtain ⟨side, -, rfl⟩ := appliedIn_openBoxes applied
    exact ⟨_, (Option.some.inj opened).symm⟩
  noTerm := by
    rintro name - ⟨side, -, isBox⟩
    exact nomatch isBox
  noPart := by
    rintro name parts ⟨owner, ownerApplied, row⟩ applied
    obtain ⟨side, listed, rfl⟩ := appliedIn_openBoxes ownerApplied
    obtain ⟨other, otherListed, rfl⟩ := appliedIn_openBoxes applied
    obtain rfl := Term.var.inj (Option.some.inj row)
    have different : ∀ side ∈ boxSides, ∀ other ∈ boxSides, side.2.2 ≠ other.2.1 := by decide
    constructor
    · exact List.not_mem_nil
    · intro isField
      have same := Term.var.inj (List.mem_singleton.mp isField)
      exact different side listed other otherListed (Name.symbol.inj same)
  labels := by
    intro name first second firstApplied secondApplied firstRow secondRow
    obtain ⟨side, listed, rfl⟩ := appliedIn_openBoxes firstApplied
    obtain ⟨other, otherListed, rfl⟩ := appliedIn_openBoxes secondApplied
    have sameRow := Term.var.inj (Option.some.inj (firstRow.trans secondRow.symm))
    have sameLabel : ∀ side ∈ boxSides, ∀ other ∈ boxSides, side.2.2 = other.2.2 →
        side.1 = other.1 := by decide
    rw [openBox, openBox, sameLabel side listed other otherListed (Name.symbol.inj sameRow)]
    rfl

/-- The first two boxes are to be equal, and the last two. -/
def boxEquations : List Equation :=
  [⟨.app (openBox ("width", "w", "r")), .app (openBox ("depth", "d", "s"))⟩,
    ⟨.app (openBox ("depth", "d", "s")), .app (openBox ("height", "h", "t"))⟩]

/-- The first box with the fields of all three and a tail. -/
def fullBox : Application Term :=
  ⟨.symbol "Box", [], .ofList [(.symbol "depth", .var (.symbol "d")),
    (.symbol "height", .var (.symbol "h")), (.symbol "width", .var (.symbol "w"))],
    some (.var (.fresh 2))⟩

/-- Once the three boxes are equal, the first one has got the fields of all of them through a
chain of tails, and what it had is as before. -/
theorem rows_never_overwrite_open_boxes : ∃ report,
    Engine.boxEngine.solve 20 boxEquations = some report ∧ report.engine.isActive = true ∧
    ∃ resolved, report.engine.store.apply (.app (openBox ("width", "w", "r"))) = .app resolved ∧
      resolved.fields.keys = [.symbol "depth", .symbol "height", .symbol "width"] ∧
      resolved.subterms = [] ∧
      resolved.fields.get? (.symbol "width") =
        some (report.engine.store.apply (.var (.symbol "w"))) := by
  obtain ⟨report, answered⟩ := Option.isSome_iff_exists.mp (by decide +kernel :
    (Engine.boxEngine.solve 20 boxEquations).isSome = true)
  have outcome : (Engine.boxEngine.solve 20 boxEquations).all (fun report =>
      report.engine.isActive = true ∧
        report.engine.store.apply (.app (openBox ("width", "w", "r"))) = .app fullBox) = true := by
    decide +kernel
  rw [answered] at outcome
  obtain ⟨active, isFull⟩ := of_decide_eq_true outcome
  have isHost : ∀ side ∈ boxSides, .app (openBox side) ∈ openBoxes := fun side listed =>
    ⟨side, listed, rfl⟩
  have driven : report.engine.DrivenBy openBoxes := by
    refine .solve Engine.boxEngine 20 boxEquations report (.start false) ?_ answered
    intro equation member
    rcases List.mem_cons.mp member with rfl | member
    · exact ⟨isHost _ (by decide), isHost _ (by decide)⟩
    · obtain rfl := List.mem_singleton.mp member
      exact ⟨isHost _ (by decide), isHost _ (by decide)⟩
  have applied : AppliedIn openBoxes (openBox ("width", "w", "r")) :=
    ⟨_, isHost _ (by decide), .self _⟩
  obtain ⟨resolved, shape, subterms, fields⟩ :=
    rows_never_overwrite openBoxes rowDiscipline_openBoxes report.engine driven _ applied
  have keys : fullBox.fields.keys = [.symbol "depth", .symbol "height", .symbol "width"] := by
    decide +kernel
  obtain rfl : fullBox = resolved := Term.app.inj (isFull.symm.trans shape)
  exact ⟨report, answered, active, fullBox, isFull, keys, subterms, fields _ _ rfl⟩

end RowUnification
