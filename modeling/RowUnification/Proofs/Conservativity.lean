import RowUnification.Proofs.Alignment
import RowUnification.Proofs.Calls

/-!
# A row extension is only used where labels are missing

An engine without a row extension aligns two records exactly if they have the same
labels, and then a row extension is not asked. So an engine with a row extension makes
the same move wherever the one without makes any but the refusal of missing labels, and
it draws no index for it. Two runs from engines that differ in the row extension alone
therefore go side by side, with the same goals and the same events, until the one without
ends or lacks a label.
-/

namespace RowUnification

/-- The failure is that one record lacks labels of the other. -/
def Failure.LacksLabels : Failure → Prop
  | mismatched (.unmatchedLabels _ _) _ => True
  | _ => False

/-- Whether a failure is of this kind can be decided. -/
instance : DecidablePred Failure.LacksLabels
  | .cyclic _ _ => .isFalse id
  | .mismatched (.functorClash _ _ _ _) _ => .isFalse id
  | .mismatched (.arityClash _ _ _ _) _ => .isFalse id
  | .mismatched (.unmatchedLabels _ _) _ => .isTrue trivial

/-- Records that align without a row extension have the same labels; then every row extension
leaves them to align in the same way, and no index is drawn. -/
theorem align_of_plain {lhs rhs : Application Term} {supply later : FreshSupply}
    {equations : List Equation} (success : align none lhs rhs supply = (.ok equations, later))
    (extension : Option RowExtension) :
    align extension lhs rhs supply = (.ok equations, later) ∧ later = supply := by
  by_cases level : (Leftover.between lhs rhs).isEmpty = true
  · rw [align_of_level none level] at success
    cases success
    exact ⟨align_of_level extension level, rfl⟩
  · rw [align_of_stuck level (Or.inl rfl)] at success
    cases success

namespace Engine

/-- The engine with another row extension, or with none. -/
def withExtension (engine : Engine) (extension : Option RowExtension) : Engine :=
  { engine with extension }

/-- Without a row extension, two applications are either refused because of their labels, or every
row extension leaves the move as it is and the supply untouched. -/
theorem applicationMove_of_plain (engine : Engine) (plain : engine.extension = none)
    (top : Equation) (lhs rhs : Application Term) (extension : Option RowExtension) :
    (∃ failure supply, engine.applicationMove top lhs rhs =
        .refused failure engine.store supply ∧ failure.LacksLabels) ∨
    ((engine.withExtension extension).applicationMove top lhs rhs =
        engine.applicationMove top lhs rhs ∧
      ∀ equations supply, engine.applicationMove top lhs rhs = .decomposed equations supply →
        supply = engine.supply) := by
  -- A refusal is not a decomposition.
  have refusal (failure : Failure) (equations : List Equation) (supply : FreshSupply)
      (same : Move.refused failure engine.store engine.supply = .decomposed equations supply) :
      supply = engine.supply := by
    contradiction
  simp only [applicationMove, withExtension, plain]
  split
  · exact Or.inr ⟨rfl, refusal _⟩
  · split
    · exact Or.inr ⟨rfl, refusal _⟩
    · rcases aligned : align none lhs rhs engine.supply with ⟨leftover | equations, later⟩
      · exact Or.inl ⟨_, later, rfl, trivial⟩
      · obtain ⟨same, unchanged⟩ := align_of_plain aligned extension
        rw [same]
        refine Or.inr ⟨rfl, ?_⟩
        rintro _ supply ⟨⟩
        exact unchanged

/-- Without a row extension, a move either refuses because of missing labels, or every row
extension leaves it as it is and the supply untouched. -/
theorem move_of_plain (engine : Engine) (plain : engine.extension = none) (top equation : Equation)
    (extension : Option RowExtension) :
    (∃ failure supply, engine.move top equation = .refused failure engine.store supply ∧
      failure.LacksLabels) ∨
    ((engine.withExtension extension).move top equation = engine.move top equation ∧
      ∀ equations supply, engine.move top equation = .decomposed equations supply →
        supply = engine.supply) := by
  -- A binding reads the store alone, so only two applications ask for the row extension.
  have binding (name : Name) (term : Term) : ∀ equations supply,
      engine.bindingMove top name term ≠ .decomposed equations supply := by
    intro equations supply
    unfold bindingMove
    split <;> exact nofun
  obtain ⟨left, right⟩ := equation
  match left, right with
  | .var lhs, .var rhs =>
    refine Or.inr ⟨rfl, fun equations supply decomposed => ?_⟩
    simp only [move] at decomposed
    split at decomposed
    · contradiction
    · split at decomposed <;> exact absurd decomposed (binding _ _ _ _)
  | .var lhs, .app rhs =>
    exact Or.inr ⟨rfl, fun _ _ decomposed => absurd decomposed (binding _ _ _ _)⟩
  | .app lhs, .var rhs =>
    exact Or.inr ⟨rfl, fun _ _ decomposed => absurd decomposed (binding _ _ _ _)⟩
  | .app lhs, .app rhs => exact engine.applicationMove_of_plain plain top lhs rhs extension

end Engine

namespace Run

/-- The run with another row extension, or with none. -/
def withExtension (run : Run) (extension : Option RowExtension) : Run :=
  { run with engine := run.engine.withExtension extension }

/-- What a move does to a run does not depend on the row extension. -/
theorem after_withExtension (run : Run) (goal : Goal) (rest : List Goal) (move : Move)
    (extension : Option RowExtension) :
    (run.withExtension extension).after goal rest move =
      (run.after goal rest move).withExtension extension := by
  cases move <;> rfl

/-- Treating a goal does not depend on the row extension if its move does not. -/
theorem advance_withExtension {engine : Engine} {top : Equation} {goal : Goal} {rest : List Goal}
    {events : List Event} {extension : Option RowExtension}
    (same : (engine.withExtension extension).move top (engine.resolve goal.equation) =
      engine.move top (engine.resolve goal.equation)) :
    ((Run.mk engine (goal :: rest) events).withExtension extension).advance top =
      ((Run.mk engine (goal :: rest) events).advance top).withExtension extension :=
  let run := Run.mk engine (goal :: rest) events
  let resolved := Goal.mk (engine.resolve goal.equation) goal.depth
  calc (run.withExtension extension).advance top
      = (run.withExtension extension).after resolved rest
          ((engine.withExtension extension).move top resolved.equation) := rfl
    _ = (run.withExtension extension).after resolved rest
          (engine.move top resolved.equation) := by rw [same]
    _ = (run.advance top).withExtension extension := run.after_withExtension _ _ _ _

/-- Two runs from engines that differ in the row extension alone end in the same way, if it makes
no difference to any move. What the engine keeps to on the way may be used for that, and that the
rest of the run ends as it does.

The induction goes along the run. -/
theorem finish_withExtension_of_moves (kept : Engine → Prop) {top : Equation} {final : Run}
    {extension : Option RowExtension}
    (step : ∀ engine goal rest events budget, kept engine →
      ((Run.mk engine (goal :: rest) events).advance top).finish top budget = some final →
      (engine.withExtension extension).move top (engine.resolve goal.equation) =
          engine.move top (engine.resolve goal.equation) ∧
        kept ((Run.mk engine (goal :: rest) events).advance top).engine)
    {budget : Nat} {run : Run} (start : kept run.engine)
    (answered : run.finish top budget = some final) :
    (run.withExtension extension).finish top budget = some (final.withExtension extension) ∧
      kept final.engine := by
  fun_induction finish top budget run with
  | case1 budget run ended =>
    cases answered
    obtain ⟨engine, pending, events⟩ := final
    obtain rfl : pending = [] := ended
    exact ⟨finish_nil budget _ events, start⟩
  | case2 run goal rest waiting => contradiction
  | case3 run goal rest budget waiting inductionHypothesis =>
    obtain ⟨engine, pending, events⟩ := run
    obtain rfl : pending = goal :: rest := waiting
    obtain ⟨same, still⟩ := step engine goal rest events budget start answered
    obtain ⟨answers, later⟩ := inductionHypothesis still answered
    refine ⟨?_, later⟩
    rw [← advance_withExtension same] at answers
    exact answers

/-- A run without a row extension that ends, and not for missing labels, ends in the same way with
any row extension, and no index is drawn: a refusal of missing labels would be its end. -/
theorem finish_withExtension {budget : Nat} {top : Equation} {run final : Run}
    (plain : run.engine.extension = none) (answered : run.finish top budget = some final)
    (labelled : ∀ failure, final.engine.failure = some failure → ¬ failure.LacksLabels)
    (extension : Option RowExtension) :
    (run.withExtension extension).finish top budget = some (final.withExtension extension) ∧
      final.engine.extension = none ∧ final.engine.supply = run.engine.supply := by
  refine finish_withExtension_of_moves
    (fun engine => engine.extension = none ∧ engine.supply = run.engine.supply)
    (fun engine goal rest events budget kept finishes => ?_) ⟨plain, rfl⟩ answered
  rcases engine.move_of_plain kept.1 top (engine.resolve goal.equation) extension with
    ⟨failure, _, refused, lacks⟩ | ⟨same, unchanged⟩
  · simp only [advance, refused, after, finish_nil] at finishes
    cases finishes
    exact absurd lacks (labelled failure rfl)
  · refine ⟨same, ?_⟩
    simp only [advance]
    cases move : engine.move top (engine.resolve goal.equation) with
    | decomposed equations supply =>
      exact ⟨kept.1, (unchanged equations supply move).trans kept.2⟩
    | settled | bound _ => exact kept
    | refused failure store supply =>
      obtain ⟨-, rfl⟩ := Engine.refused_of_move move
      exact kept

end Run

namespace Engine

/-- A call to `unify` without a row extension that answers, and not with missing labels, has the
same answer with any row extension, and no index is drawn. -/
theorem unify_withExtension {engine : Engine} {budget : Nat} {equation : Equation} {report : Report}
    (plain : engine.extension = none) (answered : engine.unify budget equation = some report)
    (labelled : ∀ failure, report.engine.failure = some failure → ¬ failure.LacksLabels)
    (extension : Option RowExtension) :
    (engine.withExtension extension).unify budget equation =
        some ⟨report.engine.withExtension extension, report.events⟩ ∧
      report.engine.extension = none ∧ report.engine.supply = engine.supply := by
  obtain ⟨run, finished, rfl⟩ := Option.map_eq_some_iff.mp answered
  obtain ⟨answers, later, supply⟩ := Run.finish_withExtension plain finished labelled extension
  refine ⟨?_, later, supply⟩
  exact Option.map_eq_some_iff.mpr ⟨_, answers, rfl⟩

/-- Two engines that differ in the row extension alone solve equations with the same answer, if
they do so for each single equation, as long as the engine keeps to something and ends well. An
engine that ends well has to have done so before as well. -/
theorem solve_withExtension_of_unify (kept endsWell : Engine → Prop) {budget : Nat}
    {extension : Option RowExtension}
    (single : ∀ engine equation report, kept engine →
      engine.unify budget equation = some report → endsWell report.engine →
      (engine.withExtension extension).unify budget equation =
          some ⟨report.engine.withExtension extension, report.events⟩ ∧ kept report.engine)
    (before : ∀ engine equation first rest report, kept engine →
      engine.unify budget equation = some first →
      first.engine.solve budget rest = some report → endsWell report.engine →
      endsWell first.engine)
    {engine : Engine} {equations : List Equation} {report : Report} (start : kept engine)
    (answered : engine.solve budget equations = some report) (well : endsWell report.engine) :
    (engine.withExtension extension).solve budget equations =
        some ⟨report.engine.withExtension extension, report.events⟩ ∧ kept report.engine := by
  induction equations generalizing engine report with
  | nil =>
    cases answered
    exact ⟨rfl, start⟩
  | cons equation rest inductionHypothesis =>
    cases failure : engine.failure with
    | some _ =>
      have failed : engine.failure ≠ none := failure ▸ nofun
      rw [solve_of_failed engine budget _ failed] at answered
      cases answered
      exact ⟨solve_of_failed _ budget _ failed, start⟩
    | none =>
      obtain ⟨first, later, head, tail, rfl⟩ :=
        (solve_cons_eq_some_iff engine budget equation rest report failure).mp answered
      have firstWell := before engine equation first rest later start head tail well
      obtain ⟨headAnswers, still⟩ := single engine equation first start head firstWell
      obtain ⟨tailAnswers, last⟩ := inductionHypothesis still tail well
      refine ⟨?_, last⟩
      exact (solve_cons_eq_some_iff (engine.withExtension extension) budget equation rest _
        failure).mpr ⟨_, _, headAnswers, tailAnswers, rfl⟩

/-- A call to `solve` without a row extension that answers, and not with missing labels, has the
same answer with any row extension, and no index is drawn. -/
theorem solve_withExtension {engine : Engine} {budget : Nat} {equations : List Equation}
    {report : Report} (plain : engine.extension = none)
    (answered : engine.solve budget equations = some report)
    (labelled : ∀ failure, report.engine.failure = some failure → ¬ failure.LacksLabels)
    (extension : Option RowExtension) :
    (engine.withExtension extension).solve budget equations =
        some ⟨report.engine.withExtension extension, report.events⟩ ∧
      report.engine.supply = engine.supply := by
  obtain ⟨answers, -, supply⟩ := solve_withExtension_of_unify
    (fun state => state.extension = none ∧ state.supply = engine.supply)
    (fun last => ∀ failure, last.failure = some failure → ¬ failure.LacksLabels)
    (fun _ _ _ kept unified labelled =>
      (unify_withExtension kept.1 unified labelled extension).imp_right
        fun later => ⟨later.1, later.2.trans kept.2⟩)
    (fun _ _ _ _ _ _ _ solved labelled failure failed =>
      labelled failure (failure_of_solve failed solved))
    ⟨plain, rfl⟩ answered labelled
  exact ⟨answers, supply⟩

/-- If an engine without a row extension solves equations, or fails on them but not because labels
are missing, then the engine with any row extension does the same from the same store and supply:
it ends, with the same store, the same failure, if any, and the same events, and it draws no index.
The store and the supply are any. -/
theorem solve_is_conservative (engine : Engine) (extension : RowExtension)
    (equations : List Equation) (report : Report)
    (solved : (engine.withExtension none).SolvesTo equations report)
    (labelled : ∀ failure, report.engine.failure = some failure → ¬ failure.LacksLabels) :
    ∃ extended, (engine.withExtension (some extension)).SolvesTo equations extended ∧
      extended.engine.store = report.engine.store ∧
      extended.engine.failure = report.engine.failure ∧
      extended.engine.supply = engine.supply ∧
      extended.events = report.events := by
  obtain ⟨enough, answers⟩ := solved
  obtain ⟨-, supply⟩ := solve_withExtension rfl (answers enough (Nat.le_refl enough)) labelled
    (some extension)
  refine ⟨⟨report.engine.withExtension (some extension), report.events⟩, ⟨enough, ?_⟩, rfl, rfl,
    supply, rfl⟩
  intro budget least
  exact (solve_withExtension rfl (answers budget least) labelled (some extension)).1

/-- `Box(label: Tag(w), width: v | s)`. -/
def levelBox : Term :=
  .app ⟨.symbol "Box", [],
    .ofList [(.symbol "label", .app (.ofSubterms (.symbol "Tag") [.var (.symbol "w")])),
      (.symbol "width", .var (.symbol "v"))],
    some (.var (.symbol "s"))⟩

/-- A solvable equation of open boxes with the same labels, and one that cannot be solved. -/
def levelEquations : List Equation :=
  [⟨wideBox, levelBox⟩,
    ⟨.app (.ofSubterms (.symbol "A") []), .app (.ofSubterms (.symbol "B") [])⟩]

/-- Without a row extension the boxes are solved and the constants are refused; the engine that
makes new rows leaves the same bindings and failure, and has made none. -/
theorem solve_is_conservative_level_boxes : ∃ report extended,
    (boxEngine.withExtension none).solve 9 levelEquations = some report ∧
      report.engine.store.keys = [.symbol "c", .symbol "w", .symbol "s"] ∧
      report.engine.isActive = false ∧
      boxEngine.SolvesTo levelEquations extended ∧
      extended.engine.store = report.engine.store ∧
      extended.engine.failure = report.engine.failure ∧ extended.engine.supply.next = 0 := by
  obtain ⟨report, answered⟩ := Option.isSome_iff_exists.mp (by decide +kernel :
    ((boxEngine.withExtension none).solve 9 levelEquations).isSome = true)
  have outcome : ((boxEngine.withExtension none).solve 9 levelEquations).all (fun report =>
      report.engine.store.keys = [.symbol "c", .symbol "w", .symbol "s"] ∧
        report.engine.isActive = false ∧
        ∀ failure ∈ report.engine.failure, ¬ failure.LacksLabels) = true := by decide +kernel
  rw [answered] at outcome
  obtain ⟨keys, failed, labelled⟩ := of_decide_eq_true outcome
  have solved : (boxEngine.withExtension none).SolvesTo levelEquations report :=
    ⟨9, fun _ enough => solve_mono answered enough⟩
  obtain ⟨extended, same, store, failure, supply, -⟩ :=
    solve_is_conservative boxEngine RowExtension.withNewRow levelEquations report solved
      fun failure recorded => labelled failure recorded
  exact ⟨report, extended, answered, keys, failed, same, store, failure, congrArg _ supply⟩

end Engine

end RowUnification
