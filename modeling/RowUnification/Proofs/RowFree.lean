import RowUnification.Proofs.Soundness
import RowUnification.Proofs.Weights

/-!
# Problems without rows

A term is row-free if no application in it has a row. On row-free terms over a
row-free store, a substitution splices nothing, so two applications become equal
exactly if their functors and labels agree and their parts become equal in pairs.
This makes every move exact: an assignment that unifies the equations still to be
solved unifies what they come down to, a variable that is bound had to equal its
term, and what is refused cannot be unified at all.

Such a run makes no tails, whatever the row extension, so it ends. It fails
exactly if the equations have no unifier, and otherwise its store is a most
general one.
-/

namespace RowUnification

namespace Term

/-- Whether no application in the term has a row. -/
def isRowFree : Term → Bool :=
  fold (fun _ => true) fun parts => parts.row.isNone && parts.children.all id

/-- A variable has no row. -/
@[simp] theorem isRowFree_var (name : Name) : (var name).isRowFree = true := rfl

/-- An application is row-free exactly if it is closed and its parts are row-free. -/
theorem isRowFree_app_iff (parts : Application Term) :
    (app parts).isRowFree = true ↔
      parts.row = none ∧ ∀ child ∈ parts.children, child.isRowFree = true := by
  have unfolded : (app parts).isRowFree =
      ((parts.map isRowFree).row.isNone && (parts.map isRowFree).children.all id) :=
    fold_app _ _ parts
  rw [unfolded, Application.children_map]
  simp [Application.map]

/-- A row-free term is flat. -/
theorem flat_of_isRowFree (term : Term) (rowFree : term.isRowFree = true) : term.Flat := by
  induction term using Term.induct with
  | variableCase name => exact .var name
  | applicationCase parts inductionHypothesis =>
    obtain ⟨closed, children⟩ := (isRowFree_app_iff parts).mp rowFree
    exact .app parts (fun child member => inductionHypothesis child member (children child member))
      (Or.inl closed)

/-- A closed application keeps its shape under a substitution. -/
theorem subst_app_of_closed (assignment : Assignment) (parts : Application Term)
    (closed : parts.row = none) :
    (app parts).subst assignment = app (parts.map (subst assignment)) := by
  rw [subst_app, Application.spliceRow_of_row_none]
  simp [Application.map, closed]

/-- Substituting row-free terms keeps a row-free term row-free. -/
theorem isRowFree_subst (assignment : Assignment) (term : Term) (rowFree : term.isRowFree = true)
    (values : ∀ name value, assignment name = some value → value.isRowFree = true) :
    (term.subst assignment).isRowFree = true := by
  induction term using Term.induct with
  | variableCase name =>
    rw [subst_var]
    cases assigned : assignment name with
    | none => rfl
    | some value => exact values name value assigned
  | applicationCase parts inductionHypothesis =>
    obtain ⟨closed, children⟩ := (isRowFree_app_iff parts).mp rowFree
    rw [subst_app_of_closed assignment parts closed, isRowFree_app_iff]
    refine ⟨by simp [Application.map, closed], fun replaced member => ?_⟩
    rw [Application.children_map] at member
    obtain ⟨child, original, rfl⟩ := List.mem_map.mp member
    exact inductionHypothesis child original (children child original)

/-- A term of a list is no larger than the list. -/
theorem size_le_totalSize (terms : List Term) (term : Term) (member : term ∈ terms) :
    term.size ≤ totalSize terms := by
  induction terms with
  | nil => cases member
  | cons head rest inductionHypothesis =>
    rw [totalSize_cons]
    rcases List.mem_cons.mp member with rfl | member
    · omega
    · have bounded := inductionHypothesis member
      omega

/-- What replaces a variable of a row-free term is a part of the result. -/
theorem size_subst_var_le (assignment : Assignment) (term : Term) (rowFree : term.isRowFree = true)
    (name : Name) (inside : name ∈ term.occurrences) :
    ((var name).subst assignment).size ≤ (term.subst assignment).size := by
  induction term using Term.induct with
  | variableCase other =>
    rw [(mem_occurrences_var other name).mp inside]
  | applicationCase parts inductionHypothesis =>
    obtain ⟨closed, children⟩ := (isRowFree_app_iff parts).mp rowFree
    obtain ⟨child, member, inChild⟩ := (mem_occurrences_app parts name).mp inside
    have inPart := inductionHypothesis child member (children child member) inChild
    have part : (child.subst assignment).size ≤ totalSize (parts.children.map (subst assignment)) :=
      size_le_totalSize _ _ (List.mem_map_of_mem member)
    rw [subst_app_of_closed assignment parts closed, size_app, Application.children_map]
    omega

/-- What replaces a variable of a row-free term occurs in the result with all its variables. -/
theorem mem_occurrences_subst_of_isRowFree (assignment : Assignment) (term : Term)
    (rowFree : term.isRowFree = true) (source : Name) (present : source ∈ term.occurrences)
    (name : Name) (image : name ∈ ((var source).subst assignment).occurrences) :
    name ∈ (term.subst assignment).occurrences := by
  induction term using Term.induct with
  | variableCase other => exact (mem_occurrences_var other source).mp present ▸ image
  | applicationCase parts inductionHypothesis =>
    obtain ⟨closed, children⟩ := (isRowFree_app_iff parts).mp rowFree
    obtain ⟨child, member, inside⟩ := (mem_occurrences_app parts source).mp present
    have inChild := inductionHypothesis child member (children child member) inside
    rw [subst_app_of_closed assignment parts closed]
    refine occurrences_of_child _ (child.subst assignment) ?_ name inChild
    rw [Application.children_map]
    exact List.mem_map_of_mem member

/-- No assignment makes a variable equal to a row-free application that contains it. -/
theorem subst_var_ne_of_mem (assignment : Assignment) (parts : Application Term)
    (rowFree : (app parts).isRowFree = true) (name : Name)
    (inside : name ∈ (app parts).occurrences) :
    (var name).subst assignment ≠ (app parts).subst assignment := by
  intro equal
  obtain ⟨closed, children⟩ := (isRowFree_app_iff parts).mp rowFree
  obtain ⟨child, member, inChild⟩ := (mem_occurrences_app parts name).mp inside
  have inPart := size_subst_var_le assignment child (children child member) name inChild
  have part : (child.subst assignment).size ≤ totalSize (parts.children.map (subst assignment)) :=
    size_le_totalSize _ _ (List.mem_map_of_mem member)
  rw [equal, subst_app_of_closed assignment parts closed, size_app, Application.children_map]
    at inPart
  omega

end Term

/-- Both sides are row-free. -/
def Equation.IsRowFree (equation : Equation) : Prop :=
  equation.lhs.isRowFree = true ∧ equation.rhs.isRowFree = true

/-- All bound terms are row-free. -/
def Store.IsRowFree (store : Store) : Prop :=
  ∀ name term, store.lookup? name = some term → term.isRowFree = true

/-- The assignment does not see the bindings by which the later store differs. -/
def Assignment.Absorbs (assignment : Assignment) (earlier later : Store) : Prop :=
  ∀ term : Term, (later.apply term).subst assignment = (earlier.apply term).subst assignment

section Closed

variable {assignment : Assignment} {lhs rhs : Application Term}

/-- Subterms that become the same list are unified in pairs. -/
theorem unifies_zipWith_of_map_eq (left right : List Term)
    (equal : left.map (Term.subst assignment) = right.map (Term.subst assignment)) :
    assignment.Unifies (List.zipWith Equation.mk left right) := by
  induction left generalizing right with
  | nil => exact nofun
  | cons term rest inductionHypothesis =>
    cases right with
    | nil => contradiction
    | cons other others =>
      rw [List.map_cons, List.map_cons, List.cons.injEq] at equal
      exact Assignment.Unifies.cons_iff.mpr ⟨equal.1, inductionHypothesis others equal.2⟩

/-- Closed applications become equal exactly if their functors agree, their subterms and
their fields become equal. -/
theorem subst_closed_eq_iff (lhsClosed : lhs.row = none) (rhsClosed : rhs.row = none) :
    (Term.app lhs).subst assignment = (Term.app rhs).subst assignment ↔
      lhs.functor = rhs.functor ∧
        lhs.subterms.map (Term.subst assignment) = rhs.subterms.map (Term.subst assignment) ∧
        lhs.fields.map (Term.subst assignment) = rhs.fields.map (Term.subst assignment) := by
  rw [Term.subst_app_of_closed assignment lhs lhsClosed,
    Term.subst_app_of_closed assignment rhs rhsClosed, Term.app.injEq]
  simp [Application.map, lhsClosed, rhsClosed]

/-- Closed applications that become equal have the same functor, arity and labels, and
their shared equations are unified. -/
theorem unifies_of_closed_eq (lhsClosed : lhs.row = none) (rhsClosed : rhs.row = none)
    (equal : (Term.app lhs).subst assignment = (Term.app rhs).subst assignment) :
    lhs.functor = rhs.functor ∧ lhs.subterms.length = rhs.subterms.length ∧
      lhs.fields.keys = rhs.fields.keys ∧ assignment.Unifies (lhs.sharedEquations rhs) := by
  obtain ⟨functors, subterms, fields⟩ := (subst_closed_eq_iff lhsClosed rhsClosed).mp equal
  refine ⟨functors, ?_, ?_, ?_⟩
  · simpa using congrArg List.length subterms
  · simpa using congrArg SortedMap.keys fields
  · refine Assignment.Unifies.append_iff.mpr ⟨unifies_zipWith_of_map_eq _ _ subterms, ?_⟩
    intro equation member
    obtain ⟨label, inLeft, inRight⟩ := (mem_commonFields_iff lhs rhs equation).mp member
    have found := congrArg (SortedMap.get? · label) fields
    simpa [inLeft, inRight] using found

/-- Closed records align exactly if their labels agree, whatever the row extension, and
then their common fields are equated and no index is used up. -/
theorem align_closed (extension : Option RowExtension) (supply : FreshSupply)
    (lhsClosed : lhs.row = none) (rhsClosed : rhs.row = none) :
    align extension lhs rhs supply =
      (if lhs.fields.keys = rhs.fields.keys then .ok (commonFields lhs rhs)
        else .error (Leftover.between lhs rhs), supply) := by
  by_cases labels : lhs.fields.keys = rhs.fields.keys
  · have level := (Leftover.isEmpty_between_iff lhs rhs).mpr labels
    simp only [align_of_level extension level, if_pos labels, lhsClosed, rowEquations,
      List.append_nil]
  · have uneven : ¬ (Leftover.between lhs rhs).isEmpty = true := fun level =>
      labels ((Leftover.isEmpty_between_iff lhs rhs).mp level)
    have unabsorbed : ¬ (Leftover.between lhs rhs).isAbsorbed lhs.row rhs.row = true := by
      rw [lhsClosed, rhsClosed]
      exact uneven
    rw [align_of_stuck uneven (Or.inr unabsorbed), if_neg labels]

end Closed

/-- Decomposing row-free applications is sound, whatever the row extension. -/
theorem Equation.decomposesSoundly_of_isRowFree (extension : Option RowExtension)
    (equation : Equation) (rowFree : equation.IsRowFree) :
    equation.DecomposesSoundly extension := by
  rintro lhs rhs supply later aligned assignment rfl functors arities success subtermsUnified
    unified
  obtain ⟨lhsClosed, -⟩ := (Term.isRowFree_app_iff lhs).mp rowFree.1
  obtain ⟨rhsClosed, -⟩ := (Term.isRowFree_app_iff rhs).mp rowFree.2
  rw [align_closed extension supply lhsClosed rhsClosed] at success
  split at success
  · next labels =>
    cases success
    refine subst_eq_of_level functors (map_subst_eq_of_zipWith _ _ arities subtermsUnified) labels
      ?_ (by rw [lhsClosed, rhsClosed])
    rw [lhsClosed, rhsClosed]
    simpa [rowEquations] using unified
  · cases success

namespace Engine

/-- The store is in normal form, and it and the equations are row-free. -/
structure RowFreeOn (engine : Engine) (equations : List Equation) : Prop where
  /-- One pass resolves a term. -/
  normal : engine.store.Normal
  /-- The bound terms are row-free. -/
  store : engine.store.IsRowFree
  /-- The equations are row-free. -/
  equations : ∀ equation ∈ equations, equation.IsRowFree

namespace RowFreeOn

variable {engine : Engine} {top equation : Equation} {rest : List Equation}

/-- The equations after the first one. -/
theorem tail (rowFree : engine.RowFreeOn (equation :: rest)) : engine.RowFreeOn rest where
  normal := rowFree.normal
  store := rowFree.store
  equations other member := rowFree.equations other (List.mem_cons_of_mem _ member)

/-- The first equation stays row-free when it is resolved. -/
theorem resolve (rowFree : engine.RowFreeOn (equation :: rest)) :
    (engine.resolve equation).IsRowFree := by
  obtain ⟨left, right⟩ := rowFree.equations equation List.mem_cons_self
  exact ⟨Term.isRowFree_subst _ _ left rowFree.store, Term.isRowFree_subst _ _ right rowFree.store⟩

/-- Binding a variable of a row-free equation keeps the store row-free. -/
theorem bound (rowFree : engine.RowFreeOn (equation :: rest)) {store : Store}
    (move : engine.move top (engine.resolve equation) = .bound store) :
    RowFreeOn { engine with store } rest := by
  obtain ⟨name, term, assigns, -, resolved, success⟩ := bound_of_move rowFree.normal move
  have termRowFree : term.isRowFree = true := by
    have sides := rowFree.resolve
    rcases assigns.1 with shape | shape
    · exact (shape ▸ sides).2
    · exact (shape ▸ sides).1
  refine ⟨rowFree.normal.bind success, ?_, rowFree.tail.equations⟩
  intro other value found
  rw [Store.lookup?_bind rowFree.normal success, resolved] at found
  split at found
  · exact Option.some.inj found ▸ termRowFree
  · obtain ⟨old, oldFound, rfl⟩ := Option.map_eq_some_iff.mp found
    refine Term.isRowFree_subst _ _ (rowFree.store other old oldFound) fun inner replaced same => ?_
    simp only [Assignment.single] at same
    split at same
    · exact Option.some.inj same ▸ termRowFree
    · contradiction

/-- Row-free applications that come down to further equations agree but for their parts, which the
equations are between; no index is used up. -/
theorem decomposed (rowFree : engine.RowFreeOn (equation :: rest)) {equations : List Equation}
    {supply : FreshSupply}
    (move : engine.move top (engine.resolve equation) = .decomposed equations supply) :
    ∃ lhs rhs, engine.resolve equation = ⟨.app lhs, .app rhs⟩ ∧
      lhs.row = none ∧ rhs.row = none ∧ lhs.functor = rhs.functor ∧
      lhs.subterms.length = rhs.subterms.length ∧ lhs.fields.keys = rhs.fields.keys ∧
      equations = lhs.sharedEquations rhs ∧
      RowFreeOn { engine with supply } (equations ++ rest) := by
  obtain ⟨lhs, rhs, aligned, shape, functors, arities, success, rfl⟩ :=
    (move ▸ engine.moved top _).of_decomposed
  have sides : (Equation.mk (.app lhs) (.app rhs)).IsRowFree := shape ▸ rowFree.resolve
  obtain ⟨lhsClosed, lhsParts⟩ := (Term.isRowFree_app_iff lhs).mp sides.1
  obtain ⟨rhsClosed, rhsParts⟩ := (Term.isRowFree_app_iff rhs).mp sides.2
  rw [align_closed _ _ lhsClosed rhsClosed] at success
  split at success
  · next labels =>
    cases success
    refine ⟨lhs, rhs, shape, lhsClosed, rhsClosed, functors, arities, labels, rfl, rowFree.normal,
      rowFree.store, ?_⟩
    intro part member
    rcases List.mem_append.mp member with shared | further
    · obtain ⟨left, right⟩ := Application.mem_children_of_mem_sharedEquations arities part shared
      exact ⟨lhsParts _ left, rhsParts _ right⟩
    · exact rowFree.tail.equations part further
  · cases success

end RowFreeOn

/-- Row-free equations are worked off, whatever the row extension. -/
theorem RowFreeOn.exists_worksOff {engine : Engine} {pending : List Equation} (top : Equation)
    (rowFree : engine.RowFreeOn pending) :
    ∃ visited final, WorksOff top engine pending visited final := by
  refine WorksOff.exists_of_reduces RowFreeOn (fun _ _ admitted => admitted.normal)
    (fun _ _ _ admitted _ => admitted.tail) (fun _ _ _ _ admitted move => admitted.bound move)
    (fun engine equation rest lhs rhs equations supply admitted shape move => Or.inr ?_)
    engine pending rowFree
  obtain ⟨left, right, sameShape, -, -, -, arities, -, rfl, parts⟩ :=
    admitted.decomposed move
  obtain ⟨rfl, rfl⟩ : left = lhs ∧ right = rhs := by
    simpa using sameShape.symm.trans shape
  have flat := admitted.resolve
  rw [shape] at flat
  exact ⟨Application.reduces_shared arities (Term.flat_of_isRowFree _ flat.1)
    (Term.flat_of_isRowFree _ flat.2), parts⟩

namespace WorksOff

variable {top : Equation} {engine final : Engine} {pending visited : List Equation}

/-- Row-free work leaves a row-free store and treats row-free equations only. -/
theorem isRowFree (work : WorksOff top engine pending visited final)
    (rowFree : engine.RowFreeOn pending) :
    final.store.IsRowFree ∧ ∀ equation ∈ visited, equation.IsRowFree := by
  induction work with
  | done engine => exact ⟨rowFree.store, nofun⟩
  | settled engine final equation pending visited move rest inductionHypothesis =>
    obtain ⟨store, treated⟩ := inductionHypothesis rowFree.tail
    exact ⟨store, List.forall_mem_cons.mpr ⟨rowFree.resolve, treated⟩⟩
  | bound engine final equation pending visited store move rest inductionHypothesis =>
    obtain ⟨store, treated⟩ := inductionHypothesis (rowFree.bound move)
    exact ⟨store, List.forall_mem_cons.mpr ⟨rowFree.resolve, treated⟩⟩
  | decomposed engine final equation pending visited equations supply move rest
      inductionHypothesis =>
    obtain ⟨-, -, -, -, -, -, -, -, -, parts⟩ := rowFree.decomposed move
    obtain ⟨store, treated⟩ := inductionHypothesis parts
    exact ⟨store, List.forall_mem_cons.mpr ⟨rowFree.resolve, treated⟩⟩
  | refused engine equation pending failure move =>
    exact ⟨rowFree.store, List.forall_mem_cons.mpr ⟨rowFree.resolve, nofun⟩⟩

end WorksOff

section Unifiers

variable {engine : Engine} {assignment : Assignment} {top equation : Equation}

/-- An assignment that unifies a variable with its term absorbs the binding. -/
theorem absorbs_bind {store : Store} {name : Name} {term : Term} (normal : engine.store.Normal)
    (free : engine.store.lookup? name = none) (resolved : engine.store.apply term = term)
    (success : engine.store.bind name term = .ok store)
    (equal : (Term.var name).subst assignment = term.subst assignment) :
    assignment.Absorbs engine.store store := by
  rw [← resolved] at equal
  exact Store.subst_apply_bind normal free success assignment equal

/-- An assignment that unifies the resolved sides unifies the two sides of a binding. -/
theorem unified_of_assigns {name : Name} {term : Term}
    (assigns : equation.Assigns name term)
    (unified : equation.lhs.subst assignment = equation.rhs.subst assignment) :
    (Term.var name).subst assignment = term.subst assignment := by
  rcases assigns.1 with rfl | rfl
  · exact unified
  · exact unified.symm

/-- What absorbs the difference between two stores unifies the same equations under both. -/
theorem unifies_of_absorbs {later : Engine} (absorbs : assignment.Absorbs engine.store later.store)
    {equations : List Equation} (unified : assignment.Unifies (equations.map engine.resolve)) :
    assignment.Unifies (equations.map later.resolve) := by
  intro image member
  obtain ⟨equation, original, rfl⟩ := List.mem_map.mp member
  have before := unified (engine.resolve equation) (List.mem_map_of_mem original)
  exact (absorbs equation.lhs).trans (before.trans (absorbs equation.rhs).symm)

/-- A row-free equation whose resolved sides can be unified is not refused.

A cycle would make a variable equal to an application that contains it, and two
applications that become equal have the same functor, arity and labels. -/
theorem move_ne_refused {rest : List Equation} (rowFree : engine.RowFreeOn (equation :: rest))
    (unified : (engine.resolve equation).lhs.subst assignment =
      (engine.resolve equation).rhs.subst assignment) (failure : Failure) (store : Store)
    (supply : FreshSupply) :
    engine.move top (engine.resolve equation) ≠ .refused failure store supply := by
  intro move
  have sides := rowFree.resolve
  have moved := engine.moved top (engine.resolve equation)
  rw [move] at moved
  have closedSides (lhs rhs : Application Term)
      (shape : ⟨.app lhs, .app rhs⟩ = engine.resolve equation) :
      lhs.row = none ∧ rhs.row = none ∧ lhs.functor = rhs.functor ∧
        lhs.subterms.length = rhs.subterms.length ∧ lhs.fields.keys = rhs.fields.keys := by
    rw [← shape] at sides unified
    obtain ⟨lhsClosed, -⟩ := (Term.isRowFree_app_iff lhs).mp sides.1
    obtain ⟨rhsClosed, -⟩ := (Term.isRowFree_app_iff rhs).mp sides.2
    obtain ⟨functors, arities, labels, -⟩ := unifies_of_closed_eq lhsClosed rhsClosed unified
    exact ⟨lhsClosed, rhsClosed, functors, arities, labels⟩
  generalize shape : engine.resolve equation = resolved at moved
  cases moved with
  | cyclic _ name term cycle assigns refused =>
    rw [← shape] at assigns
    obtain ⟨parts, rfl, -, occurs, -⟩ := exists_app_of_cyclic rowFree.normal assigns refused
    have equal := unified_of_assigns assigns unified
    have partsRowFree : (Term.app parts).isRowFree = true := by
      rcases assigns.1 with side | side
      · exact (side ▸ sides).2
      · exact (side ▸ sides).1
    exact Term.subst_var_ne_of_mem assignment parts partsRowFree name occurs equal
  | functorClash lhs rhs different =>
    exact different (closedSides lhs rhs shape.symm).2.2.1
  | arityClash lhs rhs _ different =>
    exact different (closedSides lhs rhs shape.symm).2.2.2.1
  | unmatched lhs rhs leftover _ _ misaligned =>
    obtain ⟨lhsClosed, rhsClosed, -, -, labels⟩ := closedSides lhs rhs shape.symm
    rw [align_closed _ _ lhsClosed rhsClosed, if_pos labels] at misaligned
    cases misaligned

/-- Work on row-free equations that can be unified does not fail, and whatever unifies the
equations absorbs the bindings made.

The induction goes along the run; at each move the assignment unifies the equations still
to be solved, resolved through the store as it is by then. -/
theorem WorksOff.absorbs {final : Engine} {pending visited : List Equation}
    (work : WorksOff top engine pending visited final) (rowFree : engine.RowFreeOn pending)
    (active : engine.failure = none) (unified : assignment.Unifies (pending.map engine.resolve)) :
    final.failure = none ∧ assignment.Absorbs engine.store final.store := by
  induction work with
  | done engine => exact ⟨active, fun _ => rfl⟩
  | settled engine final equation pending visited move rest inductionHypothesis =>
    rw [List.map_cons, Assignment.Unifies.cons_iff] at unified
    exact inductionHypothesis rowFree.tail active unified.2
  | bound engine final equation pending visited store move rest inductionHypothesis =>
    rw [List.map_cons, Assignment.Unifies.cons_iff] at unified
    obtain ⟨name, term, assigns, free, resolved, success⟩ := bound_of_move rowFree.normal move
    have absorbed :=
      absorbs_bind rowFree.normal free resolved success (unified_of_assigns assigns unified.1)
    have unifiedLater : assignment.Unifies (pending.map (Engine.resolve { engine with store })) :=
      unifies_of_absorbs absorbed unified.2
    obtain ⟨finalActive, later⟩ := inductionHypothesis (rowFree.bound move) active unifiedLater
    exact ⟨finalActive, fun term => (later term).trans (absorbed term)⟩
  | decomposed engine final equation pending visited equations supply move rest
      inductionHypothesis =>
    rw [List.map_cons, Assignment.Unifies.cons_iff] at unified
    obtain ⟨lhs, rhs, shape, lhsClosed, rhsClosed, -, arities, -, rfl, parts⟩ :=
      rowFree.decomposed move
    have flat := rowFree.resolve
    rw [shape] at flat unified
    have reduces := Application.reduces_shared arities (Term.flat_of_isRowFree _ flat.1)
      (Term.flat_of_isRowFree _ flat.2)
    obtain ⟨-, -, -, shared⟩ := unifies_of_closed_eq lhsClosed rhsClosed unified.1
    refine inductionHypothesis parts active ?_
    rw [List.map_append, Assignment.Unifies.append_iff]
    have resolved : (lhs.sharedEquations rhs).map (Engine.resolve { engine with supply }) =
        lhs.sharedEquations rhs := resolve_of_reduces rowFree.normal shape reduces
    exact ⟨resolved.symm ▸ shared, unified.2⟩
  | refused engine equation pending failure move =>
    rw [List.map_cons, Assignment.Unifies.cons_iff] at unified
    exact absurd move (move_ne_refused rowFree unified.1 failure _ _)

end Unifiers

/-- One row-free equation is solved if it can be solved, and in the most general way. -/
theorem unify_rowFree {engine : Engine} {equation : Equation} {rest : List Equation}
    (rowFree : engine.RowFreeOn (equation :: rest)) (active : engine.failure = none) :
    ∃ report, engine.UnifiesTo equation report ∧ report.engine.RowFreeOn rest ∧
      (report.engine.failure = none →
        report.engine.store.apply equation.lhs = report.engine.store.apply equation.rhs) ∧
      ∀ assignment : Assignment, assignment.Unifies [engine.resolve equation] →
        report.engine.failure = none ∧
          assignment.Absorbs engine.store report.engine.store := by
  have single : engine.RowFreeOn [equation] := ⟨rowFree.normal, rowFree.store, fun other member =>
    rowFree.equations other (List.mem_singleton.mp member ▸ List.mem_cons_self)⟩
  obtain ⟨visited, final, work⟩ := single.exists_worksOff equation
  obtain ⟨report, answered, rfl⟩ := unifiesTo_of_worksOff active work
  obtain ⟨storeRowFree, treated⟩ := work.isRowFree single
  obtain ⟨normal, -⟩ := work.normal_refinedBy rowFree.normal
  refine ⟨report, answered, ⟨normal, storeRowFree, rowFree.tail.equations⟩, fun finalActive => ?_,
    fun assignment unified => work.absorbs single active unified⟩
  exact work.equates rowFree.normal finalActive (fun other member =>
    Equation.decomposesSoundly_of_isRowFree _ other (treated other member)) equation
    (List.mem_singleton.mpr rfl)

/-- Row-free equations are solved in order if they can be solved, and in the most general
way. -/
theorem solve_rowFree (engine : Engine) (equations : List Equation)
    (rowFree : engine.RowFreeOn equations) (active : engine.failure = none) :
    ∃ report, engine.SolvesTo equations report ∧
      (report.engine.failure = none → ∀ equation ∈ equations,
        report.engine.store.apply equation.lhs = report.engine.store.apply equation.rhs) ∧
      ∀ assignment : Assignment, assignment.Unifies (equations.map engine.resolve) →
        report.engine.failure = none ∧
          assignment.Absorbs engine.store report.engine.store := by
  induction equations generalizing engine with
  | nil =>
    exact ⟨⟨engine, []⟩, ⟨0, fun _ _ => rfl⟩, fun _ => nofun, fun _ _ => ⟨active, fun _ => rfl⟩⟩
  | cons equation rest inductionHypothesis =>
    obtain ⟨first, head, restRowFree, headHolds, headGeneral⟩ := unify_rowFree rowFree active
    cases failure : first.engine.failure with
    | some _ =>
      have failed : first.engine.failure ≠ none := failure ▸ nofun
      have tail : first.engine.SolvesTo rest ⟨first.engine, []⟩ :=
        ⟨0, fun budget _ => solve_of_failed first.engine budget rest failed⟩
      refine ⟨_, solvesTo_cons active head tail, fun contrary => absurd contrary failed,
        fun assignment unified => ?_⟩
      rw [List.map_cons, Assignment.Unifies.cons_iff] at unified
      obtain ⟨contrary, -⟩ :=
        headGeneral assignment (Assignment.Unifies.cons_iff.mpr ⟨unified.1, nofun⟩)
      exact absurd contrary failed
    | none =>
      obtain ⟨later, tail, tailHolds, tailGeneral⟩ :=
        inductionHypothesis first.engine restRowFree failure
      refine ⟨_, solvesTo_cons active head tail, fun finalActive => ?_,
        fun assignment unified => ?_⟩
      · obtain ⟨budget, answers⟩ := tail
        obtain ⟨-, refined⟩ :=
          solve_normal_refinedBy restRowFree.normal (answers budget (Nat.le_refl budget))
        exact List.forall_mem_cons.mpr
          ⟨refined.apply_eq (headHolds failure), tailHolds finalActive⟩
      · rw [List.map_cons, Assignment.Unifies.cons_iff] at unified
        obtain ⟨-, near⟩ :=
          headGeneral assignment (Assignment.Unifies.cons_iff.mpr ⟨unified.1, nofun⟩)
        obtain ⟨finalActive, far⟩ :=
          tailGeneral assignment (unifies_of_absorbs near unified.2)
        exact ⟨finalActive, fun term => (far term).trans (near term)⟩

/-- On row-free equations over a row-free store, `solve` ends. It leaves the engine active
exactly if some assignment makes the sides of every equation, as the store resolved them
before, equal; and then every equation holds in the last store, which is most general:
every such assignment absorbs the bindings made. The row extension does not matter. -/
theorem solve_decides_rowFree (engine : Engine) (equations : List Equation)
    (reachable : Reachable engine) (active : engine.isActive = true)
    (storeRowFree : engine.store.IsRowFree)
    (equationsRowFree : ∀ equation ∈ equations, equation.IsRowFree) :
    ∃ report, engine.SolvesTo equations report ∧
      (report.engine.isActive = true ↔ ∃ assignment : Assignment, ∀ equation ∈ equations,
        (engine.store.apply equation.lhs).subst assignment =
          (engine.store.apply equation.rhs).subst assignment) ∧
      (report.engine.isActive = true →
        (∀ equation ∈ equations,
          report.engine.store.apply equation.lhs = report.engine.store.apply equation.rhs) ∧
        ∀ assignment : Assignment,
          (∀ equation ∈ equations, (engine.store.apply equation.lhs).subst assignment =
            (engine.store.apply equation.rhs).subst assignment) →
          ∀ term : Term, (report.engine.store.apply term).subst assignment =
            (engine.store.apply term).subst assignment) := by
  obtain ⟨report, answered, holds, general⟩ := solve_rowFree engine equations
    ⟨reachable.normal, storeRowFree, equationsRowFree⟩ (engine.isActive_iff.mp active)
  have generalOn (assignment : Assignment)
      (unified : ∀ equation ∈ equations, (engine.store.apply equation.lhs).subst assignment =
        (engine.store.apply equation.rhs).subst assignment) :
      report.engine.failure = none ∧ assignment.Absorbs engine.store report.engine.store :=
    general assignment fun image member => by
      obtain ⟨equation, original, rfl⟩ := List.mem_map.mp member
      exact unified equation original
  refine ⟨report, answered, ⟨fun finalActive => ?_, ?_⟩, fun finalActive => ?_⟩
  · -- The last store itself is a unifier, because it refines the first one.
    obtain ⟨budget, answers⟩ := answered
    obtain ⟨-, refined⟩ :=
      solve_normal_refinedBy reachable.normal (answers budget (Nat.le_refl budget))
    refine ⟨report.engine.store.lookup?, fun equation member => ?_⟩
    exact (refined equation.lhs).trans
      ((holds (report.engine.isActive_iff.mp finalActive) equation member).trans
        (refined equation.rhs).symm)
  · rintro ⟨assignment, unified⟩
    exact report.engine.isActive_iff.mpr (generalOn assignment unified).1
  · exact ⟨holds (report.engine.isActive_iff.mp finalActive), fun assignment unified =>
      (generalOn assignment unified).2⟩

/-- `Box(label: l, width: w)`. -/
def closedBox : Term :=
  .app ⟨.symbol "Box", [],
    .ofList [(.symbol "label", .var (.symbol "l")), (.symbol "width", .var (.symbol "w"))], none⟩

/-- `Box(label: Tag(w), width: Unit)`. -/
def unitBox : Term :=
  .app ⟨.symbol "Box", [],
    .ofList [(.symbol "label", .app (.ofSubterms (.symbol "Tag") [.var (.symbol "w")])),
      (.symbol "width", .app (.ofSubterms (.symbol "Unit") []))], none⟩

/-- The constant `Unit`. -/
def unitConstant : Term := .app (.ofSubterms (.symbol "Unit") [])

/-- An active engine that begins with `w` bound to `Unit`. -/
def widthEngine : Engine :=
  .start ⟨[(.symbol "w", unitConstant)], .ofList [(.symbol "w", 0)]⟩ none false

/-- The closed boxes are to be equal, and `x` to be the first of them. -/
def closedBoxes : List Equation := [⟨closedBox, unitBox⟩, ⟨.var (.symbol "x"), closedBox⟩]

/-- The closed boxes have a unifier that agrees with the binding of `w`, so solving them ends with
the engine active, and `l` and `x` are bound to terms in which `w` is resolved. -/
theorem solve_decides_rowFree_boxes : ∃ report,
    widthEngine.SolvesTo closedBoxes report ∧ report.engine.isActive = true ∧
      report.engine.store.keys = [.symbol "w", .symbol "l", .symbol "x"] ∧
      report.engine.store.apply closedBox = report.engine.store.apply unitBox ∧
      report.engine.store.apply (.var (.symbol "x")) = .app ⟨.symbol "Box", [],
        .ofList [(.symbol "label", .app (.ofSubterms (.symbol "Tag") [unitConstant])),
          (.symbol "width", unitConstant)], none⟩ := by
  have reachable : Reachable widthEngine :=
    .start [(.symbol "w", unitConstant)] _ none false (by decide +kernel)
  have storeRowFree : widthEngine.store.IsRowFree := by
    intro name term found
    have entry := (reachable.normal.indexed.lookup?_eq_some_iff name term).mp found
    obtain ⟨-, rfl⟩ := Prod.mk.inj (List.mem_singleton.mp entry)
    decide +kernel
  have rowFree : ∀ equation ∈ closedBoxes, equation.IsRowFree := by
    unfold Equation.IsRowFree
    decide +kernel
  obtain ⟨report, answered, decides, holds⟩ :=
    solve_decides_rowFree widthEngine closedBoxes reachable rfl storeRowFree rowFree
  have unifier : ∃ assignment : Assignment, ∀ equation ∈ closedBoxes,
      (widthEngine.store.apply equation.lhs).subst assignment =
        (widthEngine.store.apply equation.rhs).subst assignment := by
    let tag := Term.app (.ofSubterms (.symbol "Tag") [unitConstant])
    refine ⟨.ofMap (.ofList [(.symbol "l", tag), (.symbol "x", .app ⟨.symbol "Box", [],
      .ofList [(.symbol "label", tag), (.symbol "width", unitConstant)], none⟩)]), ?_⟩
    decide +kernel
  have active := decides.mpr unifier
  obtain ⟨boxes, -⟩ := holds active
  have computed := of_decide_eq_true (answered.of_any (by decide +kernel :
    (widthEngine.solve 9 closedBoxes).any (fun report =>
      report.engine.store.keys = [.symbol "w", .symbol "l", .symbol "x"] ∧
        report.engine.store.apply (.var (.symbol "x")) = .app ⟨.symbol "Box", [],
          .ofList [(.symbol "label", .app (.ofSubterms (.symbol "Tag") [unitConstant])),
            (.symbol "width", unitConstant)], none⟩) = true))
  exact ⟨report, answered, active, computed.1, boxes _ List.mem_cons_self, computed.2⟩

end Engine

end RowUnification
