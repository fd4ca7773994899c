import RowUnification.Proofs.Alignment
import RowUnification.Proofs.Calls

/-!
# Solved equations hold

Decomposing two applications is sound if every assignment that unifies the
equations they come down to makes the applications equal. It is, for every way of
aligning their records but one: if the labels are the same and one record alone
has a row, nothing is asked of that row.

Soundness of a run follows from its last store backwards. The last store refines
every earlier one, so it keeps what a binding made equal; and it is itself an
assignment, so it makes the two sides of a decomposed equation equal because it
unifies what they came down to. Which rows were bound in between does not matter.
-/

namespace RowUnification

namespace Term

/-- The subterms that a row hands to its owner. -/
def tailSubterms : Term → List Term
  | var _ => []
  | app parts => parts.subterms

/-- The fields that a row hands to its owner. -/
def tailFields : Term → NameMap Term
  | var _ => .nil
  | app parts => parts.fields

/-- What remains as the row of the owner. -/
def tailRow : Term → Option Term
  | var name => some (var name)
  | app parts => parts.row

end Term

/-- A row hands its subterms and its fields to the owner, and its own row remains. -/
theorem Application.spliceRow_some (functor : Name) (subterms : List Term) (fields : NameMap Term)
    (row : Term) :
    (Application.mk functor subterms fields (some row)).spliceRow =
      ⟨functor, subterms ++ row.tailSubterms, fields.merge row.tailFields, row.tailRow⟩ := by
  cases row with
  | var name => simp [Application.spliceRow, Term.tailSubterms, Term.tailFields, Term.tailRow,
      SortedMap.merge]
  | app parts => rfl

namespace Equation

/-- Two applications with the same labels of which exactly one has a row. -/
def HasLoneRow : Equation → Prop
  | ⟨.app lhs, .app rhs⟩ => lhs.fields.keys = rhs.fields.keys ∧ lhs.row.isSome ≠ rhs.row.isSome
  | _ => False

instance decidableHasLoneRow : DecidablePred HasLoneRow
  | ⟨.app lhs, .app rhs⟩ => inferInstanceAs
      (Decidable (lhs.fields.keys = rhs.fields.keys ∧ lhs.row.isSome ≠ rhs.row.isSome))
  | ⟨.var _, _⟩ => isFalse id
  | ⟨.app _, .var _⟩ => isFalse id

/-- Whatever unifies the equations that two applications come down to makes the
applications equal. -/
def DecomposesSoundly (extension : Option RowExtension) (equation : Equation) : Prop :=
  ∀ lhs rhs supply later aligned assignment, equation = ⟨.app lhs, .app rhs⟩ →
    lhs.functor = rhs.functor → lhs.subterms.length = rhs.subterms.length →
    align extension lhs rhs supply = (.ok aligned, later) →
    Assignment.Unifies assignment (List.zipWith Equation.mk lhs.subterms rhs.subterms) →
    Assignment.Unifies assignment aligned →
    (Term.app lhs).subst assignment = (Term.app rhs).subst assignment

end Equation

section Decomposition

variable {assignment : Assignment} {lhs rhs : Application Term}

/-- Subterms that are unified in pairs are the same lists afterwards. -/
theorem map_subst_eq_of_zipWith (left right : List Term) (arities : left.length = right.length)
    (unified : assignment.Unifies (List.zipWith Equation.mk left right)) :
    left.map (Term.subst assignment) = right.map (Term.subst assignment) := by
  induction left generalizing right with
  | nil =>
    rw [List.length_eq_zero_iff.mp arities.symm]
  | cons term rest inductionHypothesis =>
    cases right with
    | nil => contradiction
    | cons other others =>
      rw [List.zipWith_cons_cons, Assignment.Unifies.cons_iff] at unified
      rw [List.map_cons, List.map_cons, unified.1,
        inductionHypothesis others (Nat.succ.inj arities) unified.2]

/-- If the common fields are unified, each record together with what only the other has
gives the same fields. -/
theorem merge_beyond_eq (unified : assignment.Unifies (commonFields lhs rhs)) :
    (lhs.fields.map (Term.subst assignment)).merge
        ((rhs.beyond lhs).map (Term.subst assignment)) =
      (rhs.fields.map (Term.subst assignment)).merge
        ((lhs.beyond rhs).map (Term.subst assignment)) := by
  apply SortedMap.ext
  intro label
  simp only [SortedMap.get?_merge, SortedMap.get?_map, Application.get?_beyond]
  cases inLeft : lhs.fields.get? label with
  | none => cases rhs.fields.get? label <;> simp
  | some left =>
    cases inRight : rhs.fields.get? label with
    | none => simp
    | some right =>
      have agree : left.subst assignment = right.subst assignment :=
        unified ⟨left, right⟩ ((mem_commonFields_iff lhs rhs _).mpr ⟨label, inLeft, inRight⟩)
      simp [agree]

/-- Nothing beyond the other record, nothing to add. -/
theorem merge_beyond_of_isEmpty (base : NameMap Term) (record other : Application Term)
    (contained : (record.beyond other).isEmpty = true) :
    base.merge ((record.beyond other).map (Term.subst assignment)) = base := by
  apply SortedMap.ext
  intro label
  rw [SortedMap.get?_merge, SortedMap.get?_map, (SortedMap.isEmpty_iff _).mp contained label]
  rfl

/-- What the excerpt of a record with a tail resolves to. -/
theorem subst_surplus_some (record other : Application Term) (tail : Term) :
    (record.surplus other (some tail)).subst assignment =
      .app ⟨record.functor, (tail.subst assignment).tailSubterms,
        ((record.beyond other).map (Term.subst assignment)).merge
          (tail.subst assignment).tailFields, (tail.subst assignment).tailRow⟩ := by
  rw [Application.surplus, Term.subst_app, Application.map, Option.map_some,
    Application.spliceRow_some]
  rfl

/-- Two open records are equal once each row equals what only the other record has,
continued by a tail, and the tails are equal.

Each row hands the fields beyond its owner over and continues with the same tail; with
the common fields equal, both owners end up with the fields of both records. -/
theorem subst_eq_of_tails (functors : lhs.functor = rhs.functor)
    (subterms : lhs.subterms.map (Term.subst assignment) =
      rhs.subterms.map (Term.subst assignment))
    (common : assignment.Unifies (commonFields lhs rhs)) (lhsRow rhsRow lhsTail rhsTail : Term)
    (lhsOpen : lhs.row = some lhsRow) (rhsOpen : rhs.row = some rhsRow)
    (rhsFilled : (lhs.surplus rhs (some lhsTail)).subst assignment = rhsRow.subst assignment)
    (lhsFilled : (rhs.surplus lhs (some rhsTail)).subst assignment = lhsRow.subst assignment)
    (tails : lhsTail.subst assignment = rhsTail.subst assignment) :
    (Term.app lhs).subst assignment = (Term.app rhs).subst assignment := by
  rw [subst_surplus_some] at rhsFilled lhsFilled
  have fields := merge_beyond_eq common
  rw [Term.subst_app, Term.subst_app, Application.map, Application.map, lhsOpen, rhsOpen,
    Option.map_some, Option.map_some, Application.spliceRow_some, Application.spliceRow_some,
    ← lhsFilled, ← rhsFilled, tails]
  simp only [Term.tailSubterms, Term.tailFields, Term.tailRow, functors, subterms,
    ← SortedMap.merge_assoc, fields]

/-- An open record equals a closed one once its row equals what only the closed one has. -/
theorem subst_eq_of_closed (functors : lhs.functor = rhs.functor)
    (subterms : lhs.subterms.map (Term.subst assignment) =
      rhs.subterms.map (Term.subst assignment))
    (common : assignment.Unifies (commonFields lhs rhs)) (row : Term)
    (lhsOpen : lhs.row = some row) (rhsClosed : rhs.row = none)
    (contained : (lhs.beyond rhs).isEmpty = true)
    (filled : (rhs.surplus lhs none).subst assignment = row.subst assignment) :
    (Term.app lhs).subst assignment = (Term.app rhs).subst assignment := by
  have fields := merge_beyond_eq common
  rw [merge_beyond_of_isEmpty _ lhs rhs contained] at fields
  rw [Term.subst_app, Term.subst_app, Application.map, Application.map, lhsOpen, rhsClosed,
    Option.map_some, Application.spliceRow_some, ← filled]
  simp only [Application.surplus, Term.subst_app, Application.map, Application.spliceRow,
    Term.tailSubterms, Term.tailFields, Term.tailRow, Option.map_none, List.map_nil,
    List.append_nil, functors, subterms, fields]

/-- The common fields are the same equations with the sides exchanged. -/
theorem unifies_commonFields_swap (unified : assignment.Unifies (commonFields lhs rhs)) :
    assignment.Unifies (commonFields rhs lhs) := by
  intro equation member
  obtain ⟨label, inRight, inLeft⟩ := (mem_commonFields_iff rhs lhs equation).mp member
  exact (unified ⟨equation.rhs, equation.lhs⟩
    ((mem_commonFields_iff lhs rhs _).mpr ⟨label, inLeft, inRight⟩)).symm

/-- Records with the same labels are equal once their common fields and rows are, unless
one alone has a row. -/
theorem subst_eq_of_level (functors : lhs.functor = rhs.functor)
    (subterms : lhs.subterms.map (Term.subst assignment) =
      rhs.subterms.map (Term.subst assignment))
    (labels : lhs.fields.keys = rhs.fields.keys)
    (unified : assignment.Unifies (commonFields lhs rhs ++ rowEquations lhs.row rhs.row))
    (paired : lhs.row.isSome = rhs.row.isSome) :
    (Term.app lhs).subst assignment = (Term.app rhs).subst assignment := by
  obtain ⟨common, rows⟩ := Assignment.Unifies.append_iff.mp unified
  have level := (Leftover.isEmpty_between_iff lhs rhs).mpr labels
  rw [Leftover.isEmpty, Leftover.between_eq, Bool.and_eq_true] at level
  have fields := merge_beyond_eq common
  rw [merge_beyond_of_isEmpty _ lhs rhs level.1, merge_beyond_of_isEmpty _ rhs lhs level.2]
    at fields
  have row : lhs.row.map (Term.subst assignment) = rhs.row.map (Term.subst assignment) := by
    match lhsRow : lhs.row, rhsRow : rhs.row with
    | none, none => rfl
    | some left, some right =>
      rw [lhsRow, rhsRow] at rows
      exact congrArg some (rows _ (List.mem_singleton.mpr rfl))
    | some _, none | none, some _ =>
      rw [lhsRow, rhsRow] at paired
      contradiction
  simp only [Term.subst_app, Application.map, functors, subterms, fields, row]

/-- Decomposing is sound without a row extension and with one that draws the new row
variables from the supply, unless one of two records with the same labels alone has a row. The
indices may be drawn in any way: the tails of two records are equated, whichever they are. -/
theorem decomposesSoundly_of_paired (draw : FreshSupply → Nat × FreshSupply)
    (extension : Option RowExtension) (equation : Equation)
    (drawing : extension = none ∨ extension = some (RowExtension.withRowBy draw))
    (paired : ¬ equation.HasLoneRow) : equation.DecomposesSoundly extension := by
  rintro lhs rhs supply later aligned assignment rfl functors arities success subtermsUnified
    unified
  have subterms := map_subst_eq_of_zipWith _ _ arities subtermsUnified
  cases alignedBy_of_align draw extension lhs rhs supply later aligned drawing success with
  | level labels =>
    refine subst_eq_of_level functors subterms labels unified ?_
    exact Decidable.not_not.mp fun lone => paired ⟨labels, lone⟩
  | fillLhs row lhsOpen rhsClosed contained =>
    obtain ⟨common, filled⟩ := Assignment.Unifies.append_iff.mp unified
    exact subst_eq_of_closed functors subterms common row lhsOpen rhsClosed contained
      (filled _ (List.mem_singleton.mpr rfl))
  | fillRhs row lhsClosed rhsOpen contained =>
    obtain ⟨common, filled⟩ := Assignment.Unifies.append_iff.mp unified
    exact (subst_eq_of_closed functors.symm subterms.symm (unifies_commonFields_swap common) row
      rhsOpen lhsClosed contained (filled _ (List.mem_singleton.mpr rfl))).symm
  | extended first second firstRow secondRow sides firstOpen secondOpen _ =>
    obtain ⟨common, made⟩ := Assignment.Unifies.append_iff.mp unified
    simp only [Application.extensionEquations, Assignment.Unifies.cons_iff] at made
    obtain ⟨secondFilled, firstFilled, tails, -⟩ := made
    rcases sides with ⟨rfl, rfl⟩ | ⟨rfl, rfl⟩
    · exact subst_eq_of_tails functors subterms common firstRow secondRow _ _ firstOpen secondOpen
        secondFilled firstFilled tails
    · exact subst_eq_of_tails functors subterms common secondRow firstRow _ _ secondOpen firstOpen
        firstFilled secondFilled tails.symm

end Decomposition

namespace Engine

section Held

variable {engine : Engine} {top equation : Equation} {later : Store}

/-- The sides of an equation that needed nothing resolve alike from then on. -/
theorem apply_eq_of_settled (move : engine.move top (engine.resolve equation) = .settled)
    (refined : engine.store.RefinedBy later) :
    later.apply equation.lhs = later.apply equation.rhs := by
  obtain ⟨name, same⟩ := (move ▸ engine.moved top _).of_settled
  rw [resolve, Equation.mk.injEq] at same
  exact refined.apply_eq (same.1.trans same.2.symm)

/-- The sides of an equation that bound a variable resolve alike from then on: the binding makes
the resolved sides equal, and every later store refines it. -/
theorem apply_eq_of_bound {store : Store} (normal : engine.store.Normal)
    (move : engine.move top (engine.resolve equation) = .bound store)
    (refined : store.RefinedBy later) : later.apply equation.lhs = later.apply equation.rhs := by
  obtain ⟨name, term, assigns, free, -, success⟩ := bound_of_move normal move
  have earlier := (Store.refinedBy_bind normal free success).trans refined
  have held := refined.apply_eq (Store.apply_var_bind normal free success)
  rw [← earlier equation.lhs, ← earlier equation.rhs]
  simp only [resolve, Equation.Assigns, Equation.mk.injEq] at assigns
  obtain ⟨⟨left, right⟩ | ⟨left, right⟩, -⟩ := assigns
  · rw [left, right, held]
  · rw [left, right, held]

/-- The sides of an equation that was decomposed soundly resolve alike in every later store that
makes the equations hold that it came down to. -/
theorem apply_eq_of_decomposed {equations : List Equation} {supply : FreshSupply}
    (move : engine.move top (engine.resolve equation) = .decomposed equations supply)
    (refined : engine.store.RefinedBy later)
    (sound : (engine.resolve equation).DecomposesSoundly engine.extension)
    (held : ∀ other ∈ equations, later.apply other.lhs = later.apply other.rhs) :
    later.apply equation.lhs = later.apply equation.rhs := by
  obtain ⟨lhs, rhs, aligned, shape, functors, arities, success, rfl⟩ :=
    (move ▸ engine.moved top _).of_decomposed
  have unified : Assignment.Unifies later.lookup? _ := held
  obtain ⟨subterms, records⟩ := Assignment.Unifies.append_iff.mp unified
  have equal := sound lhs rhs engine.supply supply aligned _ shape functors arities success
    subterms records
  rw [resolve, Equation.mk.injEq] at shape
  rw [← refined equation.lhs, ← refined equation.rhs, shape.1, shape.2]
  exact equal

end Held

/-- An engine that worked off equations without failing has made each of them hold,
provided the decompositions on the way were sound.

The induction goes along the run; the store at the end refines the one at each step. -/
theorem WorksOff.equates {top : Equation} {engine final : Engine} {pending visited : List Equation}
    (work : WorksOff top engine pending visited final) (normal : engine.store.Normal)
    (active : final.failure = none)
    (sound : ∀ equation ∈ visited, equation.DecomposesSoundly engine.extension) :
    ∀ equation ∈ pending,
      final.store.apply equation.lhs = final.store.apply equation.rhs := by
  induction work with
  | done engine => exact List.forall_mem_nil _
  | settled engine final equation pending visited move rest inductionHypothesis =>
    obtain ⟨-, refined⟩ := rest.normal_refinedBy normal
    rw [List.forall_mem_cons]
    exact ⟨apply_eq_of_settled move refined, inductionHypothesis normal active fun other member =>
      sound other (List.mem_cons_of_mem _ member)⟩
  | bound engine final equation pending visited store move rest inductionHypothesis =>
    have boundNormal : store.Normal := (developsInto_of_move normal move).normal normal
    obtain ⟨-, refined⟩ := rest.normal_refinedBy boundNormal
    rw [List.forall_mem_cons]
    exact ⟨apply_eq_of_bound normal move refined,
      inductionHypothesis boundNormal active fun other member =>
        sound other (List.mem_cons_of_mem _ member)⟩
  | decomposed engine final equation pending visited equations supply move rest
      inductionHypothesis =>
    obtain ⟨-, refined⟩ := rest.normal_refinedBy normal
    have held := inductionHypothesis normal active fun other member =>
      sound other (List.mem_cons_of_mem _ member)
    rw [List.forall_mem_cons]
    refine ⟨?_, fun other member => held other (List.mem_append_right _ member)⟩
    exact apply_eq_of_decomposed move refined (sound _ List.mem_cons_self) fun other member =>
      held other (List.mem_append_left _ member)
  | refused engine equation pending failure move => cases active

/-- Equations solved in order hold at the end, provided the decompositions on the way
were sound. -/
theorem solve_equates_of_sound {engine : Engine} {budget : Nat} {equations : List Equation}
    {report : Report} (normal : engine.store.Normal)
    (answered : engine.solve budget equations = some report) (active : report.engine.failure = none)
    (sound : ∀ equation ∈ report.events.filterMap Event.equation?,
      equation.DecomposesSoundly engine.extension) :
    ∀ equation ∈ equations,
      report.engine.store.apply equation.lhs = report.engine.store.apply equation.rhs := by
  induction equations generalizing engine report with
  | nil => exact fun _ member => nomatch member
  | cons equation rest inductionHypothesis =>
    have engineActive := active_of_solve answered active
    obtain ⟨first, later, head, tail, rfl⟩ :=
      (solve_cons_eq_some_iff engine budget equation rest report engineActive).mp answered
    simp only [List.filterMap_append, List.mem_append, or_imp, forall_and] at sound
    obtain ⟨visited, work, reported⟩ := worksOff_of_unify engineActive head
    obtain ⟨firstNormal, -⟩ := work.normal_refinedBy normal
    obtain ⟨-, refined⟩ := solve_normal_refinedBy firstNormal tail
    have firstActive := active_of_solve tail active
    rw [List.forall_mem_cons]
    constructor
    · apply refined.apply_eq
      apply work.equates normal firstActive (reported ▸ sound.1)
      exact List.mem_singleton.mpr rfl
    · apply inductionHypothesis firstNormal tail active
      rw [work.frame.1]
      exact sound.2

/-- Equations that a reachable engine solves without failing hold in its last store,
labelled fields and rows included, provided no equation it treated had two records with
the same labels of which one alone has a row. The engine has no row extension or the one
that makes new row variables. -/
theorem solve_makes_sides_equal (engine : Engine) (budget : Nat) (equations : List Equation)
    (report : Report) (reachable : Reachable engine)
    (standard : engine.extension = none ∨ engine.extension = some RowExtension.withNewRow)
    (answered : engine.solve budget equations = some report)
    (active : report.engine.isActive = true)
    (paired : ∀ goal bound, Event.visited goal bound ∈ report.events →
      ¬ goal.equation.HasLoneRow) :
    ∀ equation ∈ equations,
      report.engine.store.apply equation.lhs = report.engine.store.apply equation.rhs := by
  apply solve_equates_of_sound reachable.normal answered (report.engine.isActive_iff.mp active)
  intro equation member
  obtain ⟨event, reported, treated⟩ := List.mem_filterMap.mp member
  cases event with
  | failed failure => exact nomatch treated
  | visited goal bound =>
    cases treated
    exact decomposesSoundly_of_paired FreshSupply.draw _ _ standard (paired goal bound reported)

/-- The two boxes are equal in the store that solving them leaves: each is the box with the fields
of both, and the first new tail is its row. -/
theorem solve_makes_boxes_equal : ∃ report,
    boxEngine.solve 20 [⟨wideBox, deepBox⟩] = some report ∧ report.engine.isActive = true ∧
      report.engine.store.keys = [.symbol "c", .symbol "r", .symbol "s", .fresh 1] ∧
      report.engine.store.apply wideBox = .app ⟨.symbol "Box", [],
        .ofList [(.symbol "depth", .var (.symbol "d")),
          (.symbol "label", .app (.ofSubterms (.symbol "Tag") [.var (.symbol "w")])),
          (.symbol "width", .var (.symbol "w"))], some (.var (.fresh 0))⟩ ∧
      report.engine.store.apply wideBox = report.engine.store.apply deepBox := by
  obtain ⟨report, answered⟩ :=
    Option.isSome_iff_exists.mp (by decide +kernel :
      (boxEngine.solve 20 [⟨wideBox, deepBox⟩]).isSome = true)
  have outcome : (boxEngine.solve 20 [⟨wideBox, deepBox⟩]).all (fun report =>
      report.engine.isActive = true ∧
      report.engine.store.keys = [.symbol "c", .symbol "r", .symbol "s", .fresh 1] ∧
      report.engine.store.apply wideBox = .app ⟨.symbol "Box", [],
        .ofList [(.symbol "depth", .var (.symbol "d")),
          (.symbol "label", .app (.ofSubterms (.symbol "Tag") [.var (.symbol "w")])),
          (.symbol "width", .var (.symbol "w"))], some (.var (.fresh 0))⟩) = true := by
    decide +kernel
  have paired : (boxEngine.solve 20 [⟨wideBox, deepBox⟩]).all
      (fun report => (report.events.filterMap Event.equation?).all
        fun equation => ¬ equation.HasLoneRow) = true := by decide +kernel
  rw [answered] at outcome paired
  obtain ⟨active, keys, resolved⟩ := of_decide_eq_true outcome
  have treated := List.all_eq_true.mp paired
  refine ⟨report, answered, active, keys, resolved, solve_makes_sides_equal boxEngine 20
    [⟨wideBox, deepBox⟩] report boxEngine_reachable (Or.inr rfl) answered active
    (fun goal bound reported => ?_) _ (List.mem_singleton.mpr rfl)⟩
  exact of_decide_eq_true
    (treated goal.equation (List.mem_filterMap.mpr ⟨.visited goal bound, reported, rfl⟩))

end Engine

end RowUnification
