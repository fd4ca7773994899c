import RowUnification.Proofs.Conservativity

/-!
# Runs within machine words

An engine counts the indices of its tails without end, though a machine keeps them in
words. The two ways of counting part only where the machine words run out: as long as
the supply at the end of a run is a machine word, an engine that draws machine words
makes the same moves, with the same bindings, the same failure, if any, and the same
events. From zero on, a run would have to fill as many rows as there are machine words
to show a difference.

A supply never goes back, so it is enough to look at the end of a run.
-/

namespace RowUnification

/-- An index after which another machine word is left is drawn in the same way. -/
theorem FreshSupply.drawInWord_of_room {supply : FreshSupply}
    (room : supply.draw.2.next < UInt64.size) : supply.drawInWord = supply.draw := by
  simp only [drawInWord, draw] at room ⊢
  rw [Nat.mod_eq_of_lt room]

/-- Rows are filled with the same terms if the supply is a machine word afterwards. -/
theorem synthesize_inWord (fillings : List Filling) (supply : FreshSupply)
    (room : (synthesize RowExtension.withNewRow fillings supply).supply.next < UInt64.size) :
    synthesize RowExtension.withWordRow fillings supply =
      synthesize RowExtension.withNewRow fillings supply := by
  induction fillings generalizing supply with
  | nil => rfl
  | cons filling rest inductionHypothesis =>
    rw [supply_synthesize_cons] at room
    have drawn := FreshSupply.drawInWord_of_room
      (Nat.lt_of_le_of_lt (next_le_synthesize rest supply.draw.2) room)
    have made : RowExtension.withWordRow filling.record filling.labels supply =
        RowExtension.withNewRow filling.record filling.labels supply := by
      simp only [RowExtension.withWordRow, RowExtension.withNewRow, RowExtension.withRowBy, drawn]
    have others : synthesize RowExtension.withWordRow rest
          (RowExtension.withNewRow filling.record filling.labels supply).2 =
        synthesize RowExtension.withNewRow rest
          (RowExtension.withNewRow filling.record filling.labels supply).2 :=
      inductionHypothesis supply.draw.2 room
    simp only [synthesize, made, others]

/-- Two records are aligned in the same way if the supply is a machine word afterwards. -/
theorem align_inWord {lhs rhs : Application Term} {supply : FreshSupply}
    (room : ∀ equations later, align (some .withNewRow) lhs rhs supply = (.ok equations, later) →
      later.next < UInt64.size) :
    align (some .withWordRow) lhs rhs supply = align (some .withNewRow) lhs rhs supply := by
  by_cases level : (Leftover.between lhs rhs).isEmpty = true
  · rw [align_of_level _ level, align_of_level _ level]
  · by_cases absorbed : (Leftover.between lhs rhs).isAbsorbed lhs.row rhs.row = true
    · have filled := @align_of_absorbed lhs rhs supply .withNewRow level absorbed _ rfl
      have same := synthesize_inWord _ supply (room _ _ filled)
      rw [filled, align_of_absorbed .withWordRow level absorbed _ same]
    · rw [align_of_stuck level (Or.inr absorbed), align_of_stuck level (Or.inr absorbed)]

namespace Engine

/-- A move is the same within machine words, if the supply is one after a decomposition. -/
theorem move_inWord {engine : Engine} (standard : engine.extension = some .withNewRow)
    {top equation : Equation}
    (room : ∀ equations supply, engine.move top equation = .decomposed equations supply →
      supply.next < UInt64.size) :
    (engine.withExtension (some .withWordRow)).move top equation = engine.move top equation := by
  obtain ⟨left, right⟩ := equation
  match left, right with
  -- A binding reads the store alone, so only two applications ask for the row extension.
  | .var lhs, .var rhs | .var lhs, .app rhs | .app lhs, .var rhs => rfl
  | .app lhs, .app rhs =>
    simp only [move, applicationMove, withExtension, standard] at room ⊢
    split
    · rfl
    · split
      · rfl
      · next functors arities =>
        rw [align_inWord]
        intro equations later aligned
        exact room (List.zipWith Equation.mk lhs.subterms rhs.subterms ++ equations) later
          (by rw [if_neg functors, if_neg arities, aligned])

/-- Work never gives an index back. -/
theorem WorksOff.next_le {top : Equation} {engine final : Engine}
    {pending visited : List Equation} (work : WorksOff top engine pending visited final)
    (standard : engine.extension = some .withNewRow) :
    engine.supply.next ≤ final.supply.next := by
  induction work with
  | done engine => exact Nat.le_refl _
  | settled _ _ _ _ _ _ _ inductionHypothesis => exact inductionHypothesis standard
  | bound _ _ _ _ _ _ _ _ inductionHypothesis => exact inductionHypothesis standard
  | decomposed engine final equation pending visited equations supply move _
      inductionHypothesis =>
    obtain ⟨lhs, rhs, aligned, -, -, -, success, -⟩ := (move ▸ engine.moved top _).of_decomposed
    have way := aligned_of_align _ lhs rhs _ _ aligned (Or.inr standard) success
    exact Nat.le_trans way.next_le (inductionHypothesis standard)
  | refused _ _ _ _ _ => exact Nat.le_refl _

/-- The first move of a run that ends with a machine word as its supply is the same within machine
words: the run draws the rest of its indices after it. -/
theorem advance_inWord {engine : Engine} {goal : Goal} {rest : List Goal} {events : List Event}
    {top : Equation} {budget : Nat} {final : Run} (standard : engine.extension = some .withNewRow)
    (finishes : ((Run.mk engine (goal :: rest) events).advance top).finish top budget = some final)
    (room : final.engine.supply.next < UInt64.size) :
    (engine.withExtension (some .withWordRow)).move top (engine.resolve goal.equation) =
        engine.move top (engine.resolve goal.equation) ∧
      ((Run.mk engine (goal :: rest) events).advance top).engine.extension =
        some .withNewRow := by
  have still : ((Run.mk engine (goal :: rest) events).advance top).engine.extension =
      some .withNewRow := by
    simp only [Run.advance]
    cases engine.move top (engine.resolve goal.equation) <;> exact standard
  obtain ⟨visited, work, -⟩ := Run.worksOff_of_finish budget _ final finishes
  have ahead := work.next_le still
  refine ⟨move_inWord standard fun equations supply decomposed => ?_, still⟩
  simp only [Run.advance, decomposed, Run.after] at ahead
  exact Nat.lt_of_le_of_lt ahead room

/-- A call to `unify` after which the supply is a machine word has the same answer within machine
words. -/
theorem unify_inWord {engine : Engine} {budget : Nat} {equation : Equation} {report : Report}
    (standard : engine.extension = some .withNewRow)
    (answered : engine.unify budget equation = some report)
    (room : report.engine.supply.next < UInt64.size) :
    (engine.withExtension (some .withWordRow)).unify budget equation =
        some ⟨report.engine.withExtension (some .withWordRow), report.events⟩ ∧
      report.engine.extension = some .withNewRow := by
  obtain ⟨run, finished, rfl⟩ := Option.map_eq_some_iff.mp answered
  obtain ⟨answers, still⟩ := Run.finish_withExtension_of_moves
    (fun state => state.extension = some .withNewRow)
    (fun _ _ _ _ _ kept finishes => advance_inWord kept finishes room) standard finished
  exact ⟨Option.map_eq_some_iff.mpr ⟨_, answers, rfl⟩, still⟩

/-- A call to `unify` keeps the row extension and gives no index back. -/
theorem unify_next_le {engine : Engine} {budget : Nat} {equation : Equation} {report : Report}
    (standard : engine.extension = some .withNewRow)
    (answered : engine.unify budget equation = some report) :
    report.engine.extension = some .withNewRow ∧
      engine.supply.next ≤ report.engine.supply.next := by
  obtain ⟨run, finished, rfl⟩ := Option.map_eq_some_iff.mp answered
  obtain ⟨visited, work, -⟩ := Run.worksOff_of_finish budget _ run finished
  exact ⟨work.frame.1.trans standard, work.next_le standard⟩

/-- Calls to `solve` give no index back either. -/
theorem solve_next_le {engine : Engine} {budget : Nat} {equations : List Equation}
    {report : Report} (standard : engine.extension = some .withNewRow)
    (answered : engine.solve budget equations = some report) :
    engine.supply.next ≤ report.engine.supply.next := by
  induction equations generalizing engine report with
  | nil =>
    cases answered
    exact Nat.le_refl _
  | cons equation rest inductionHypothesis =>
    cases failure : engine.failure with
    | some _ =>
      rw [solve_of_failed engine budget _ (failure ▸ nofun)] at answered
      cases answered
      exact Nat.le_refl _
    | none =>
      obtain ⟨first, later, head, tail, rfl⟩ :=
        (solve_cons_eq_some_iff engine budget equation rest report failure).mp answered
      obtain ⟨still, near⟩ := unify_next_le standard head
      have far := inductionHypothesis still tail
      exact Nat.le_trans near far

/-- An engine whose supply is a machine word after it has solved equations solves them within
machine words with the same bindings, the same failure, if any, and the same events. -/
theorem solve_inWord (engine : Engine) (budget : Nat) (equations : List Equation) (report : Report)
    (standard : engine.extension = some .withNewRow)
    (answered : engine.solve budget equations = some report)
    (room : report.engine.supply.next < UInt64.size) :
    (engine.withExtension (some .withWordRow)).solve budget equations =
      some ⟨report.engine.withExtension (some .withWordRow), report.events⟩ := by
  obtain ⟨answers, -⟩ := solve_withExtension_of_unify
    (fun state => state.extension = some .withNewRow)
    (fun last => last.supply.next < UInt64.size)
    (fun _ _ _ kept unified room => unify_inWord kept unified room)
    (fun _ _ _ _ _ kept unified solved room =>
      Nat.lt_of_le_of_lt (solve_next_le (unify_next_le kept unified).1 solved) room)
    standard answered room
  exact answers

end Engine

end RowUnification
