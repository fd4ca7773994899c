import Mathlib.Data.List.Forall2
import RowUnification.Proofs.Soundness

/-!
# Calling again with a solved equation

A call that succeeds does not always succeed again. Where two records have the same
labels and one alone has a row, nothing is asked of that row; a later equation of the same
call may bind it, and then the two records differ.

`Term.EqualUpToLoneRows` is the equality that an engine accepts without binding anything:
two terms may differ in rows that only one of two corresponding records has. An engine
whose store resolves the sides of an equation to such terms is left as it is by a call
with the equation, and no other engine stands by the equation. So a call that succeeds
succeeds again exactly if the sides resolve to such terms, which they do if the call came
across no lone row.

Terms that resolve to the same term are such terms, whatever rows they have. A call with two of
them treats one goal after another and binds no variable, and no row extension is asked.
-/

namespace RowUnification

/-- The terms stand in the same place of two applications. -/
inductive Application.Corresponding (lhs rhs : Application Term) : Term → Term → Prop
  /-- They are subterms at the same position. -/
  | subterm (position : Nat) (left right : Term) (inLeft : lhs.subterms[position]? = some left)
      (inRight : rhs.subterms[position]? = some right) : Corresponding lhs rhs left right
  /-- They are fields under the same label. -/
  | field (label : Name) (left right : Term) (inLeft : lhs.fields.get? label = some left)
      (inRight : rhs.fields.get? label = some right) : Corresponding lhs rhs left right
  /-- They are the rows. -/
  | row (left right : Term) (inLeft : lhs.row = some left) (inRight : rhs.row = some right) :
      Corresponding lhs rhs left right

/-- The terms are equal up to rows that only one of two corresponding applications has. -/
inductive Term.EqualUpToLoneRows : Term → Term → Prop
  /-- A variable is equal to itself. -/
  | var (name : Name) : EqualUpToLoneRows (.var name) (.var name)
  /-- Applications agree in functor, number of subterms and labels, and wherever both have
  a part. -/
  | app (lhs rhs : Application Term) (functors : lhs.functor = rhs.functor)
      (arities : lhs.subterms.length = rhs.subterms.length)
      (labels : lhs.fields.keys = rhs.fields.keys)
      (parts : ∀ left right, lhs.Corresponding rhs left right → EqualUpToLoneRows left right) :
      EqualUpToLoneRows (.app lhs) (.app rhs)

namespace Application

variable {lhs rhs : Application Term} {left right : Term}

/-- Corresponding terms are parts of their applications. -/
theorem Corresponding.mem_children (corresponding : lhs.Corresponding rhs left right) :
    left ∈ lhs.children ∧ right ∈ rhs.children := by
  simp only [mem_children_iff]
  cases corresponding with
  | subterm position _ _ inLeft inRight =>
    exact ⟨Or.inl (List.mem_of_getElem? inLeft), Or.inl (List.mem_of_getElem? inRight)⟩
  | field label _ _ inLeft inRight =>
    exact ⟨Or.inr (Or.inl ((SortedMap.mem_values_iff _ _).mpr ⟨label, inLeft⟩)),
      Or.inr (Or.inl ((SortedMap.mem_values_iff _ _).mpr ⟨label, inRight⟩))⟩
  | row _ _ inLeft inRight => exact ⟨Or.inr (Or.inr inLeft), Or.inr (Or.inr inRight)⟩

/-- A term corresponds to itself alone in its own application. -/
theorem Corresponding.eq (corresponding : lhs.Corresponding lhs left right) : left = right := by
  cases corresponding with
  | subterm position _ _ inLeft inRight => exact Option.some.inj (inLeft.symm.trans inRight)
  | field label _ _ inLeft inRight => exact Option.some.inj (inLeft.symm.trans inRight)
  | row _ _ inLeft inRight => exact Option.some.inj (inLeft.symm.trans inRight)

/-- Subterms in pairs are the subterms at the same positions. -/
theorem mem_zipWith_subterms_iff (lhs rhs : Application Term) (equation : Equation) :
    equation ∈ List.zipWith Equation.mk lhs.subterms rhs.subterms ↔
      ∃ position : Nat, lhs.subterms[position]? = some equation.lhs ∧
        rhs.subterms[position]? = some equation.rhs := by
  simp only [List.mem_iff_getElem?, List.getElem?_zipWith_eq_some]
  constructor
  · rintro ⟨position, left, right, inLeft, inRight, rfl⟩
    exact ⟨position, inLeft, inRight⟩
  · rintro ⟨position, inLeft, inRight⟩
    exact ⟨position, equation.lhs, equation.rhs, inLeft, inRight, rfl⟩

/-- The row equation is between the two rows, where both are present. -/
theorem mem_rowEquations_iff (lhs rhs : Option Term) (equation : Equation) :
    equation ∈ rowEquations lhs rhs ↔ lhs = some equation.lhs ∧ rhs = some equation.rhs := by
  match lhs, rhs with
  | some left, some right =>
    rw [rowEquations, List.mem_singleton, Option.some.injEq, Option.some.injEq]
    constructor
    · rintro rfl
      exact ⟨rfl, rfl⟩
    · rintro ⟨rfl, rfl⟩
      rfl
  | none, _ | some _, none => simp [rowEquations]

/-- The equations that two applications with the same labels come down to are those between
corresponding terms. -/
theorem mem_parts_iff (lhs rhs : Application Term) (equation : Equation) :
    equation ∈ List.zipWith Equation.mk lhs.subterms rhs.subterms ++
        (commonFields lhs rhs ++ rowEquations lhs.row rhs.row) ↔
      lhs.Corresponding rhs equation.lhs equation.rhs := by
  rw [List.mem_append, List.mem_append, mem_zipWith_subterms_iff, mem_commonFields_iff,
    mem_rowEquations_iff]
  constructor
  · rintro (⟨position, inLeft, inRight⟩ | ⟨label, inLeft, inRight⟩ | ⟨inLeft, inRight⟩)
    · exact .subterm position _ _ inLeft inRight
    · exact .field label _ _ inLeft inRight
    · exact .row _ _ inLeft inRight
  · intro corresponding
    cases corresponding with
    | subterm position _ _ inLeft inRight => exact Or.inl ⟨position, inLeft, inRight⟩
    | field label _ _ inLeft inRight => exact Or.inr (Or.inl ⟨label, inLeft, inRight⟩)
    | row _ _ inLeft inRight => exact Or.inr (Or.inr ⟨inLeft, inRight⟩)

end Application

/-- Every term is equal to itself. -/
theorem Term.EqualUpToLoneRows.refl (term : Term) : EqualUpToLoneRows term term := by
  induction term using Term.induct with
  | variableCase name => exact .var name
  | applicationCase parts inductionHypothesis =>
    refine .app parts parts rfl rfl rfl fun left right corresponding => ?_
    rw [← corresponding.eq]
    exact inductionHypothesis left corresponding.mem_children.1

/-- A record is equal, up to a lone row, to what is left of it without its row. -/
theorem Term.EqualUpToLoneRows.dropRow (term : Term) : EqualUpToLoneRows term term.dropRow := by
  cases term with
  | var name => exact .var name
  | app parts =>
    refine .app parts _ rfl rfl rfl fun left right corresponding => ?_
    cases corresponding with
    | subterm position _ _ inLeft inRight =>
      cases inLeft.symm.trans inRight
      exact refl left
    | field label _ _ inLeft inRight =>
      cases inLeft.symm.trans inRight
      exact refl left
    | row _ _ _ inRight => exact nomatch inRight

/-- Applications without fields and rows are equal up to lone rows if their subterms are. -/
theorem Term.EqualUpToLoneRows.ofSubterms (functor : Name) {lefts rights : List Term}
    (subterms : List.Forall₂ EqualUpToLoneRows lefts rights) :
    EqualUpToLoneRows (.app (.ofSubterms functor lefts)) (.app (.ofSubterms functor rights)) := by
  refine .app _ _ rfl subterms.length_eq rfl fun left right corresponding => ?_
  cases corresponding with
  | subterm position _ _ inLeft inRight =>
    obtain ⟨below, rfl⟩ := List.getElem?_eq_some_iff.mp inLeft
    obtain ⟨otherBelow, rfl⟩ := List.getElem?_eq_some_iff.mp inRight
    exact subterms.get below otherBelow
  | field label _ _ inLeft _ => exact nomatch inLeft
  | row _ _ inLeft _ => exact nomatch inLeft

namespace Engine

/-- A call with the equation succeeds and changes no binding. -/
def StandsBy (engine : Engine) (equation : Equation) : Prop :=
  ∃ report, engine.UnifiesTo equation report ∧ report.engine.isActive = true ∧
    report.engine.store = engine.store

section Repetition

variable {top : Equation} {engine : Engine}

/-- Corresponding parts of resolved applications are resolved. -/
theorem resolve_of_corresponding (normal : engine.store.Normal) {equation part : Equation}
    {lhs rhs : Application Term} (resolved : engine.resolve equation = ⟨.app lhs, .app rhs⟩)
    (corresponding : lhs.Corresponding rhs part.lhs part.rhs) : engine.resolve part = part := by
  obtain ⟨lhsResolved, rhsResolved⟩ := Equation.mk.inj resolved
  obtain ⟨lhsPart, rhsPart⟩ := corresponding.mem_children
  have lhsKept : engine.store.apply part.lhs = part.lhs :=
    normal.apply_child lhs (lhsResolved ▸ normal.refinedBy_self equation.lhs) _ lhsPart
  have rhsKept : engine.store.apply part.rhs = part.rhs :=
    normal.apply_child rhs (rhsResolved ▸ normal.refinedBy_self equation.rhs) _ rhsPart
  rw [resolve, lhsKept, rhsKept]

/-- Equations each of which an active engine works off without a trace are worked off
without a trace together. -/
theorem worksOff_of_each (active : engine.failure = none) (equations : List Equation)
    (each : ∀ equation ∈ equations, ∃ visited, WorksOff top engine [equation] visited engine) :
    ∃ visited, WorksOff top engine equations visited engine := by
  induction equations with
  | nil => exact ⟨[], .done engine⟩
  | cons equation rest inductionHypothesis =>
    obtain ⟨head, others⟩ := List.forall_mem_cons.mp each
    obtain ⟨visited, near⟩ := head
    obtain ⟨later, far⟩ := inductionHypothesis others
    exact ⟨visited ++ later, near.append active far⟩

/-- An active engine works off an equation without a trace if its store resolves the sides to
terms that are equal up to lone rows, whatever the row extension.

The induction goes along the equality. With the same labels on both sides nothing is asked of
the row extension, and the parts of resolved applications are resolved. -/
theorem worksOff_of_equalUpToLoneRows (normal : engine.store.Normal)
    (active : engine.failure = none) {left right : Term} (equal : left.EqualUpToLoneRows right)
    (equation : Equation) (resolved : engine.resolve equation = ⟨left, right⟩) :
    ∃ visited, WorksOff top engine [equation] visited engine := by
  induction equal generalizing equation with
  | var name =>
    have move : engine.move top (engine.resolve equation) = .settled := by
      rw [resolved]
      exact if_pos rfl
    exact ⟨_, .settled engine engine equation [] [] move (.done engine)⟩
  | app lhs rhs functors arities labels parts inductionHypothesis =>
    have level := (Leftover.isEmpty_between_iff lhs rhs).mpr labels
    have move : engine.move top (engine.resolve equation) =
        .decomposed (List.zipWith Equation.mk lhs.subterms rhs.subterms ++
          (commonFields lhs rhs ++ rowEquations lhs.row rhs.row)) engine.supply := by
      rw [resolved]
      simp only [move, applicationMove, ne_eq, functors, arities, not_true_eq_false, if_false,
        align_of_level engine.extension level]
    have each (part : Equation)
        (member : part ∈ List.zipWith Equation.mk lhs.subterms rhs.subterms ++
          (commonFields lhs rhs ++ rowEquations lhs.row rhs.row)) :
        ∃ visited, WorksOff top engine [part] visited engine := by
      have corresponding := (Application.mem_parts_iff lhs rhs part).mp member
      exact inductionHypothesis part.lhs part.rhs corresponding part
        (resolve_of_corresponding normal resolved corresponding)
    obtain ⟨visited, rest⟩ := worksOff_of_each active _ each
    refine ⟨_, .decomposed engine engine equation [] visited _ _ move ?_⟩
    rw [List.append_nil]
    exact rest

/-- The excerpt of a record is not equal to the row of a resolved record, which is a free
variable. -/
theorem not_equalUpToLoneRows_row (normal : engine.store.Normal) {record : Application Term}
    {row : Term} (resolved : engine.store.apply (.app record) = .app record)
    (opened : record.row = some row) (first second : Application Term) (tail : Option Term) :
    ¬ (engine.store.apply (first.surplus second tail)).EqualUpToLoneRows
      (engine.store.apply row) := by
  have child : row ∈ record.children :=
    (Application.mem_children_iff record row).mpr (Or.inr (Or.inr opened))
  have flat : (Term.app record).Flat := resolved ▸ normal.flat_apply (.app record)
  obtain ⟨name, rfl⟩ : ∃ name, row = .var name := by
    rcases flat.row with closed | ⟨name, variableRow⟩
    · rw [closed] at opened
      contradiction
    · exact ⟨name, Option.some.inj (opened.symm.trans variableRow)⟩
  rw [normal.apply_child record resolved _ child, Store.apply, Application.surplus, Term.subst_app]
  intro equal
  cases equal

/-- Resolved applications that come down to equations between terms equal up to lone rows are
equal up to lone rows. No row is filled or extended for that: it would have to be bound. -/
theorem equalUpToLoneRows_of_aligned (normal : engine.store.Normal) {lhs rhs : Application Term}
    {aligned : List Equation} {supply : FreshSupply}
    (lhsResolved : engine.store.apply (.app lhs) = .app lhs)
    (rhsResolved : engine.store.apply (.app rhs) = .app rhs) (functors : lhs.functor = rhs.functor)
    (arities : lhs.subterms.length = rhs.subterms.length)
    (way : Aligned lhs rhs engine.supply aligned supply)
    (held : ∀ part ∈ List.zipWith Equation.mk lhs.subterms rhs.subterms ++ aligned,
      (engine.store.apply part.lhs).EqualUpToLoneRows (engine.store.apply part.rhs)) :
    (Term.app lhs).EqualUpToLoneRows (.app rhs) := by
  cases way with
  | level labels =>
    refine .app lhs rhs functors arities labels fun left right corresponding => ?_
    have equal := held ⟨left, right⟩ ((Application.mem_parts_iff lhs rhs _).mpr corresponding)
    obtain ⟨lhsPart, rhsPart⟩ := corresponding.mem_children
    rw [normal.apply_child lhs lhsResolved left lhsPart,
      normal.apply_child rhs rhsResolved right rhsPart] at equal
    exact equal
  | fillLhs row lhsOpen rhsClosed contained =>
    have equal := held ⟨rhs.surplus lhs none, row⟩ (by simp)
    exact absurd equal (not_equalUpToLoneRows_row normal lhsResolved lhsOpen _ _ _)
  | fillRhs row lhsClosed rhsOpen contained =>
    have equal := held ⟨lhs.surplus rhs none, row⟩ (by simp)
    exact absurd equal (not_equalUpToLoneRows_row normal rhsResolved rhsOpen _ _ _)
  | extended first second firstRow secondRow sides firstOpen secondOpen distinct =>
    have equal := held ⟨first.surplus second (some (engine.supply.tail 0)), secondRow⟩
      (by simp [Application.extensionEquations])
    have secondResolved : engine.store.apply (.app second) = .app second := by
      rcases sides with ⟨-, rfl⟩ | ⟨-, rfl⟩
      · exact rhsResolved
      · exact lhsResolved
    exact absurd equal (not_equalUpToLoneRows_row normal secondResolved secondOpen _ _ _)

/-- No store that refines the one after a binding is the one before it: there the variable was free,
and here it resolves to another term. -/
theorem store_ne_of_bound (normal : engine.store.Normal) {equation : Equation} {store later : Store}
    (move : engine.move top (engine.resolve equation) = .bound store)
    (refined : store.RefinedBy later) : later ≠ engine.store := by
  rintro rfl
  obtain ⟨name, term, assigns, free, resolved, success⟩ := bound_of_move normal move
  have held : engine.store.apply (.var name) = engine.store.apply term :=
    refined.apply_eq (Store.apply_var_bind normal free success)
  rw [Store.apply_var_of_free _ name free, resolved] at held
  exact assigns.2 held.symm

/-- A run that ends without failure and without a new binding has resolved the sides of every
equation to terms that are equal up to lone rows.

The induction goes along the run, which has bound no variable. -/
theorem equalUpToLoneRows_of_worksOff {final : Engine} {pending visited : List Equation}
    (work : WorksOff top engine pending visited final) (normal : engine.store.Normal)
    (standard : engine.extension = none ∨ engine.extension = some RowExtension.withNewRow)
    (active : final.failure = none) (unchanged : final.store = engine.store) :
    ∀ equation ∈ pending,
      (engine.store.apply equation.lhs).EqualUpToLoneRows (engine.store.apply equation.rhs) := by
  induction work with
  | done engine => exact List.forall_mem_nil _
  | settled engine final equation pending visited move rest inductionHypothesis =>
    have others := inductionHypothesis normal standard active unchanged
    refine List.forall_mem_cons.mpr ⟨?_, others⟩
    obtain ⟨name, same⟩ := (move ▸ engine.moved top _).of_settled
    rw [resolve, Equation.mk.injEq] at same
    rw [same.1, same.2]
    exact .var name
  | bound engine final equation pending visited store move rest inductionHypothesis =>
    obtain ⟨-, refined⟩ := rest.normal_refinedBy ((developsInto_of_move normal move).normal normal)
    exact absurd unchanged (store_ne_of_bound normal move refined)
  | decomposed engine final equation pending visited equations supply move rest
      inductionHypothesis =>
    have held := inductionHypothesis normal standard active unchanged
    obtain ⟨lhs, rhs, aligned, shape, functors, arities, success, rfl⟩ :=
      (move ▸ engine.moved top _).of_decomposed
    refine List.forall_mem_cons.mpr
      ⟨?_, fun other member => held other (List.mem_append_right _ member)⟩
    have way := aligned_of_align engine.extension lhs rhs engine.supply supply aligned standard
      success
    obtain ⟨lhsShape, rhsShape⟩ := Equation.mk.inj shape
    rw [lhsShape, rhsShape]
    exact equalUpToLoneRows_of_aligned normal (lhsShape ▸ normal.refinedBy_self equation.lhs)
      (rhsShape ▸ normal.refinedBy_self equation.rhs) functors arities way
      fun part member => held part (List.mem_append_left _ member)
  | refused engine equation pending failure move => contradiction

end Repetition

/-- An active engine stands by an equation exactly if its store resolves the sides to terms that
are equal up to lone rows. -/
theorem standsBy_iff {engine : Engine} (equation : Equation) (normal : engine.store.Normal)
    (standard : engine.extension = none ∨ engine.extension = some RowExtension.withNewRow)
    (active : engine.failure = none) :
    engine.StandsBy equation ↔
      (engine.store.apply equation.lhs).EqualUpToLoneRows (engine.store.apply equation.rhs) := by
  constructor
  · rintro ⟨report, answered, stillActive, unchanged⟩
    obtain ⟨visited, work⟩ := answered.worksOff active
    apply equalUpToLoneRows_of_worksOff work normal standard
      (report.engine.isActive_iff.mp stillActive) unchanged
    exact List.mem_singleton.mpr rfl
  · intro equal
    obtain ⟨visited, work⟩ := worksOff_of_equalUpToLoneRows normal active equal equation rfl
    obtain ⟨report, answered, same⟩ := unifiesTo_of_worksOff active work
    refine ⟨report, answered, ?_, congrArg Engine.store same⟩
    rw [same]
    exact engine.isActive_iff.mpr active

/-- A call with an equation that a reachable engine has just solved succeeds again and changes no
binding exactly if the sides, resolved by the last store, are equal up to rows that only one of
two corresponding records has. So it is if the first call came across no two records with the
same labels of which one alone had a row. The engine has no row extension or the one that makes
new row variables. -/
theorem stands_by_solved_iff (engine : Engine) (equation : Equation) (report : Report)
    (reachable : Reachable engine)
    (standard : engine.extension = none ∨ engine.extension = some RowExtension.withNewRow)
    (answered : engine.UnifiesTo equation report) (active : report.engine.isActive = true) :
    (report.engine.StandsBy equation ↔
      (report.engine.store.apply equation.lhs).EqualUpToLoneRows
        (report.engine.store.apply equation.rhs)) ∧
    ((∀ goal bound, Event.visited goal bound ∈ report.events → ¬ goal.equation.HasLoneRow) →
      report.engine.StandsBy equation) := by
  have solved := report.engine.isActive_iff.mp active
  obtain ⟨enough, answers⟩ := answered
  have answer := answers enough (Nat.le_refl enough)
  have engineActive : engine.failure = none := active_of_solve (solve_singleton answer) solved
  obtain ⟨visited, work, reported⟩ := worksOff_of_unify engineActive answer
  obtain ⟨normal, -⟩ := work.normal_refinedBy reachable.normal
  have characterized := standsBy_iff equation normal (work.frame.1.symm ▸ standard) solved
  refine ⟨characterized, fun paired => characterized.mpr ?_⟩
  have sound : ∀ treated ∈ visited, treated.DecomposesSoundly engine.extension := by
    intro treated member
    obtain ⟨event, seen, isTreated⟩ := List.mem_filterMap.mp (reported ▸ member)
    cases event with
    | failed failure => exact nomatch isTreated
    | visited goal bound =>
      cases isTreated
      exact decomposesSoundly_of_paired FreshSupply.draw _ _ standard (paired goal bound seen)
  rw [work.equates reachable.normal solved sound equation (List.mem_singleton.mpr rfl)]
  exact .refl _

/-- `F(l: x | r)`. -/
def openRecord : Term :=
  .app ⟨.symbol "F", [], .ofList [(.symbol "l", .var (.symbol "x"))], some (.var (.symbol "r"))⟩

/-- `Pair(F(l: x | r), r) == Pair(F(l: y), other)`: the row is asked nothing in the first
subterm and equated in the second. -/
def loneRowEquation (other : Term) : Equation where
  lhs := .app (.ofSubterms (.symbol "Pair") [openRecord, .var (.symbol "r")])
  rhs := .app (.ofSubterms (.symbol "Pair")
    [.app ⟨.symbol "F", [], .ofList [(.symbol "l", .var (.symbol "y"))], none⟩, other])

/-- `F(m: z)`. -/
def furtherField : Term :=
  .app ⟨.symbol "F", [], .ofList [(.symbol "m", .var (.symbol "z"))], none⟩

/-- The boxes are solved without a lone row. -/
theorem exists_solved_boxes : ∃ report, boxEngine.UnifiesTo ⟨wideBox, deepBox⟩ report ∧
    report.engine.isActive = true ∧ ∀ goal bound, Event.visited goal bound ∈ report.events →
      ¬ goal.equation.HasLoneRow := by
  obtain ⟨report, answer⟩ := Option.isSome_iff_exists.mp (by decide +kernel :
    (boxEngine.unify 20 ⟨wideBox, deepBox⟩).isSome = true)
  have outcome : (boxEngine.unify 20 ⟨wideBox, deepBox⟩).all (fun report =>
      report.engine.isActive ∧ ∀ equation ∈ report.events.filterMap Event.equation?,
        ¬ equation.HasLoneRow) = true := by decide +kernel
  rw [answer] at outcome
  obtain ⟨active, paired⟩ := of_decide_eq_true outcome
  refine ⟨report, unifiesTo_of_unify answer, active, ?_⟩
  intro goal bound reported
  exact paired goal.equation (List.mem_filterMap.mpr ⟨.visited goal bound, reported, rfl⟩)

/-- If the other term is a variable, it becomes the row, and the sides differ in a lone row. -/
theorem exists_solved_variable : ∃ report,
    boxEngine.UnifiesTo (loneRowEquation (.var (.symbol "z"))) report ∧
      report.engine.isActive = true ∧
      report.engine.store.apply (loneRowEquation (.var (.symbol "z"))).lhs =
        .app (.ofSubterms (.symbol "Pair") [openRecord, .var (.symbol "r")]) ∧
      report.engine.store.apply (loneRowEquation (.var (.symbol "z"))).rhs =
        .app (.ofSubterms (.symbol "Pair") [openRecord.dropRow, .var (.symbol "r")]) := by
  obtain ⟨report, answer⟩ := Option.isSome_iff_exists.mp (by decide +kernel :
    (boxEngine.unify 20 (loneRowEquation (.var (.symbol "z")))).isSome = true)
  have outcome : (boxEngine.unify 20 (loneRowEquation (.var (.symbol "z")))).all (fun report =>
      report.engine.isActive ∧
      report.engine.store.apply (loneRowEquation (.var (.symbol "z"))).lhs =
        .app (.ofSubterms (.symbol "Pair") [openRecord, .var (.symbol "r")]) ∧
      report.engine.store.apply (loneRowEquation (.var (.symbol "z"))).rhs =
        .app (.ofSubterms (.symbol "Pair") [openRecord.dropRow, .var (.symbol "r")])) = true := by
    decide +kernel
  rw [answer] at outcome
  exact ⟨report, unifiesTo_of_unify answer, of_decide_eq_true outcome⟩

/-- The engine stands by the solved boxes, which had no lone row, and by a solved equation whose
lone row met no more than a variable, though its sides still differ in this row. -/
theorem stands_by_solved_boxes_and_variable : ∃ boxes pairs,
    boxEngine.UnifiesTo ⟨wideBox, deepBox⟩ boxes ∧ boxes.engine.StandsBy ⟨wideBox, deepBox⟩ ∧
    boxEngine.UnifiesTo (loneRowEquation (.var (.symbol "z"))) pairs ∧
      pairs.engine.StandsBy (loneRowEquation (.var (.symbol "z"))) ∧
      pairs.engine.store.apply (loneRowEquation (.var (.symbol "z"))).lhs ≠
        pairs.engine.store.apply (loneRowEquation (.var (.symbol "z"))).rhs := by
  obtain ⟨boxes, boxesSolved, boxesActive, paired⟩ := exists_solved_boxes
  obtain ⟨pairs, pairsSolved, pairsActive, left, right⟩ := exists_solved_variable
  refine ⟨boxes, pairs, boxesSolved, ?_, pairsSolved, ?_, ?_⟩
  · apply (stands_by_solved_iff boxEngine _ boxes boxEngine_reachable (Or.inr rfl) boxesSolved
      boxesActive).2
    exact paired
  · apply (stands_by_solved_iff boxEngine _ pairs boxEngine_reachable (Or.inr rfl) pairsSolved
      pairsActive).1.mpr
    rw [left, right]
    exact .ofSubterms _ (.cons (.dropRow openRecord) (.cons (.var _) .nil))
  · rw [left, right]
    decide +kernel

/-- A call that succeeded need not succeed again: the row that is asked nothing in the first
subterm takes in a field in the second, and then the records in the first subterm have
different labels. -/
theorem solved_lone_row_fails_again :
    ¬ ∀ (engine : Engine) (equation : Equation) (report : Report), Reachable engine →
      engine.isActive = true →
      (engine.extension = none ∨ engine.extension = some RowExtension.withNewRow) →
      engine.UnifiesTo equation report → report.engine.isActive = true →
      ∃ second, report.engine.UnifiesTo equation second ∧ second.engine.isActive = true ∧
        second.engine.store = report.engine.store := by
  intro stable
  obtain ⟨report, answer⟩ := Option.isSome_iff_exists.mp (by decide +kernel :
    (boxEngine.unify 20 (loneRowEquation furtherField)).isSome = true)
  have outcome : (boxEngine.unify 20 (loneRowEquation furtherField)).all (fun report =>
      report.engine.isActive ∧ (report.engine.unify 20 (loneRowEquation furtherField)).any
        fun second => !second.engine.isActive) = true := by decide +kernel
  rw [answer] at outcome
  obtain ⟨active, failsAgain⟩ := of_decide_eq_true outcome
  obtain ⟨failed, failedAnswer, inactive⟩ := (Option.any_eq_true _ _).mp failsAgain
  obtain ⟨second, answered, stillActive, -⟩ := stable boxEngine (loneRowEquation furtherField)
    report boxEngine_reachable rfl (Or.inr rfl) (unifiesTo_of_unify answer) active
  obtain rfl := answered.unique (unifiesTo_of_unify failedAnswer)
  rw [stillActive] at inactive
  contradiction

/-- A run that ends without failure and without a new binding has only visited goals.

The induction goes along the run: a binding on the way would still be there at its end. -/
theorem visited_of_unchanged {budget : Nat} {top : Equation} {run final : Run}
    (answered : run.finish top budget = some final) (normal : run.engine.store.Normal)
    (active : final.engine.failure = none) (unchanged : final.engine.store = run.engine.store)
    (quiet : ∀ event ∈ run.events, ∃ goal, event = .visited goal none) :
    ∀ event ∈ final.events, ∃ goal, event = .visited goal none := by
  fun_induction Run.finish top budget run with
  | case1 budget run ended =>
    cases answered
    exact quiet
  | case2 run goal rest waiting => contradiction
  | case3 run goal rest budget waiting inductionHypothesis =>
    obtain ⟨engine, pending, events⟩ := run
    obtain rfl : pending = goal :: rest := waiting
    have visits : ∀ event ∈ Event.visited ⟨engine.resolve goal.equation, goal.depth⟩ none :: events,
        ∃ goal, event = .visited goal none :=
      List.forall_mem_cons.mpr ⟨⟨_, rfl⟩, quiet⟩
    obtain ⟨visited, work, -⟩ := Run.worksOff_of_finish budget _ final answered
    simp only [Run.advance] at answered work inductionHypothesis
    cases move : engine.move top (engine.resolve goal.equation) with
    | settled =>
      rw [move] at answered inductionHypothesis
      exact inductionHypothesis answered normal unchanged visits
    | bound store =>
      rw [move] at work
      have boundNormal : store.Normal := (developsInto_of_move normal move).normal normal
      obtain ⟨-, refined⟩ := work.normal_refinedBy boundNormal
      exact absurd unchanged (store_ne_of_bound normal move refined)
    | decomposed equations supply =>
      rw [move] at answered inductionHypothesis
      exact inductionHypothesis answered normal unchanged visits
    | refused failure store supply =>
      rw [move] at answered
      simp only [Run.after, Run.finish_nil] at answered
      cases answered
      contradiction

/-- An active engine that resolves the sides of an equation to the same term answers a call with the
equation, is left as it is, and has only visited goals. -/
theorem unifiesTo_of_equal {engine : Engine} {equation : Equation} (normal : engine.store.Normal)
    (active : engine.failure = none)
    (equal : engine.store.apply equation.lhs = engine.store.apply equation.rhs) :
    ∃ report, engine.UnifiesTo equation report ∧ report.engine = engine ∧
      ∀ event ∈ report.events, ∃ goal, event = .visited goal none := by
  have resolved : engine.resolve equation =
      ⟨engine.store.apply equation.rhs, engine.store.apply equation.rhs⟩ := by
    rw [resolve, equal]
  obtain ⟨visited, work⟩ := worksOff_of_equalUpToLoneRows normal active (.refl _) equation resolved
  obtain ⟨report, answered, same⟩ := unifiesTo_of_worksOff active work
  refine ⟨report, answered, same, ?_⟩
  obtain ⟨enough, answers⟩ := answered
  have answer := answers enough (Nat.le_refl enough)
  rw [unify_of_active engine enough equation active] at answer
  obtain ⟨run, finished, rfl⟩ := Option.map_eq_some_iff.mp answer
  have last : run.engine = engine := same
  have quiet := visited_of_unchanged finished normal (last ▸ active) (congrArg Engine.store last)
    (List.forall_mem_nil _)
  intro event member
  exact quiet event (List.mem_reverse.mp member)

/-- A reachable engine that is active and resolves two terms to the same term answers a call with
them, has no failure, binding or index more than before, and has only visited goals on the way.
Any reachable engine, failed or not, is left as it is by a call with a term and itself. The row
extension and the rows of the terms are any. -/
theorem equal_terms_change_nothing (engine : Engine) (reachable : Reachable engine) :
    (∀ equation : Equation, engine.isActive = true →
      engine.store.apply equation.lhs = engine.store.apply equation.rhs →
        ∃ report, engine.UnifiesTo equation report ∧ report.engine = engine ∧
          ∀ event ∈ report.events, ∃ goal, event = .visited goal none) ∧
    ∀ term : Term, ∃ report, engine.UnifiesTo ⟨term, term⟩ report ∧ report.engine = engine ∧
      ∀ event ∈ report.events, ∃ goal, event = .visited goal none := by
  constructor
  · intro equation active equal
    exact unifiesTo_of_equal reachable.normal (engine.isActive_iff.mp active) equal
  · intro term
    cases failure : engine.failure with
    | none => exact unifiesTo_of_equal reachable.normal failure rfl
    | some _ =>
      have failed : engine.failure ≠ none := failure ▸ nofun
      have answered := unifiesTo_of_unify (unify_of_failed engine 0 ⟨term, term⟩ failed)
      exact ⟨⟨engine, []⟩, answered, rfl, List.forall_mem_nil _⟩

/-- After the open boxes are solved they are equal. A second call with them is answered without a
binding, and the two indices drawn by the first remain the only ones. -/
theorem equal_terms_change_nothing_boxes : ∃ solved again,
    boxEngine.UnifiesTo ⟨wideBox, deepBox⟩ solved ∧ wideBox ≠ deepBox ∧
      solved.engine.store.apply wideBox = solved.engine.store.apply deepBox ∧
      solved.engine.UnifiesTo ⟨wideBox, deepBox⟩ again ∧ again.engine = solved.engine ∧
      again.engine.supply.next = 2 ∧
      ∀ event ∈ again.events, ∃ goal, event = .visited goal none := by
  obtain ⟨solved, answer⟩ := Option.isSome_iff_exists.mp (by decide +kernel :
    (boxEngine.unify 20 ⟨wideBox, deepBox⟩).isSome = true)
  have outcome : (boxEngine.unify 20 ⟨wideBox, deepBox⟩).all (fun report =>
      report.engine.isActive ∧ report.engine.supply.next = 2 ∧
        report.engine.store.apply wideBox = report.engine.store.apply deepBox) = true := by
    decide +kernel
  rw [answer] at outcome
  obtain ⟨active, drawn, equal⟩ := of_decide_eq_true outcome
  have reachable : Reachable solved.engine :=
    .unify boxEngine 20 ⟨wideBox, deepBox⟩ solved boxEngine_reachable answer
  obtain ⟨again, answered, same, quiet⟩ :=
    (equal_terms_change_nothing solved.engine reachable).1 ⟨wideBox, deepBox⟩ active equal
  exact ⟨solved, again, unifiesTo_of_unify answer, by decide +kernel, equal, answered, same,
    same ▸ drawn, quiet⟩

end Engine

end RowUnification
