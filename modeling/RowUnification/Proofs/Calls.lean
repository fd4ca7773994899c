import RowUnification.Proofs.Moves

/-!
# Calls and reachable engines

A call answers within some budget or within none, and then within every larger
one; `Engine.UnifiesTo` and `Engine.SolvesTo` name the answer without the budget.
The answer of `unify` is what working off its equation leaves, and `solve` is
`unify` on one equation after another until the engine fails.

An engine is reachable if it was started on a store of given bindings and driven
by calls that answered. Its store is in normal form, whether it has failed or
not. Each call to `unify` or `solve` develops the store binding by binding, so it
leaves a finer one.
-/

namespace RowUnification.Engine

/-- The call to `unify` ends with this report, given enough budget. -/
def UnifiesTo (engine : Engine) (equation : Equation) (report : Report) : Prop :=
  ∃ enough, ∀ budget, enough ≤ budget → engine.unify budget equation = some report

/-- The call to `solve` ends with this report, given enough budget. -/
def SolvesTo (engine : Engine) (equations : List Equation) (report : Report) : Prop :=
  ∃ enough, ∀ budget, enough ≤ budget → engine.solve budget equations = some report

/-- The engines that calls lead to from a store of given bindings. -/
inductive Reachable : Engine → Prop
  /-- An engine started on the store of some bindings. -/
  | start (entries : List (Name × Term)) (store : Store) (extension : Option RowExtension)
      (trace : Bool) (made : Store.ofEntries entries = .ok store) :
      Reachable (start store extension trace)
  /-- The engine after solving one equation. -/
  | unify (engine : Engine) (budget : Nat) (equation : Equation) (report : Report)
      (reachable : Reachable engine) (answered : engine.unify budget equation = some report) :
      Reachable report.engine
  /-- The engine after solving equations in order. -/
  | solve (engine : Engine) (budget : Nat) (equations : List Equation) (report : Report)
      (reachable : Reachable engine) (answered : engine.solve budget equations = some report) :
      Reachable report.engine
  /-- The engine after binding a variable directly. -/
  | assign (engine : Engine) (name : Name) (term : Term) (reachable : Reachable engine) :
      Reachable (engine.assign name term).engine

/-- A failed engine does not work on an equation. -/
theorem unify_of_failed (engine : Engine) (budget : Nat) (equation : Equation)
    (failed : engine.failure ≠ none) : engine.unify budget equation = some ⟨engine, []⟩ := by
  have inactive : engine.isActive ≠ true := fun active => failed (engine.isActive_iff.mp active)
  simp only [unify, Run.start, if_neg inactive, Run.finish_nil]
  rfl

/-- An active engine starts with the equation as its only goal. -/
theorem unify_of_active (engine : Engine) (budget : Nat) (equation : Equation)
    (active : engine.failure = none) :
    engine.unify budget equation =
      ((Run.mk engine [⟨equation, 0⟩] []).finish equation budget).map Run.report := by
  simp only [unify, Run.start, if_pos (engine.isActive_iff.mpr active)]

/-- An answer is what working off the equation leaves, and its events report the
equations treated. -/
theorem worksOff_of_unify {engine : Engine} {budget : Nat} {equation : Equation} {report : Report}
    (active : engine.failure = none) (answered : engine.unify budget equation = some report) :
    ∃ visited, WorksOff equation engine [equation] visited report.engine ∧
      report.events.filterMap Event.equation? = visited := by
  rw [unify_of_active engine budget equation active] at answered
  obtain ⟨run, finished, rfl⟩ := Option.map_eq_some_iff.mp answered
  obtain ⟨visited, work, reported⟩ := Run.worksOff_of_finish budget _ run finished
  exact ⟨visited, work, by simpa [Run.report] using reported⟩

/-- More budget does not change an answer. -/
theorem unify_mono {engine : Engine} {budget larger : Nat} {equation : Equation} {report : Report}
    (answered : engine.unify budget equation = some report) (enough : budget ≤ larger) :
    engine.unify larger equation = some report := by
  obtain ⟨run, finished, reported⟩ := Option.map_eq_some_iff.mp answered
  exact Option.map_eq_some_iff.mpr ⟨run, Run.finish_mono finished enough, reported⟩

/-- An answer within one budget is the answer. -/
theorem unifiesTo_of_unify {engine : Engine} {budget : Nat} {equation : Equation} {report : Report}
    (answered : engine.unify budget equation = some report) : engine.UnifiesTo equation report :=
  ⟨budget, fun _ enough => unify_mono answered enough⟩

/-- There is one answer at most. -/
theorem UnifiesTo.unique {engine : Engine} {equation : Equation} {first second : Report}
    (one : engine.UnifiesTo equation first) (other : engine.UnifiesTo equation second) :
    first = second := by
  obtain ⟨oneBudget, oneAnswers⟩ := one
  obtain ⟨otherBudget, otherAnswers⟩ := other
  have firstAnswer := oneAnswers (max oneBudget otherBudget) (by omega)
  have secondAnswer := otherAnswers (max oneBudget otherBudget) (by omega)
  exact Option.some.inj (firstAnswer.symm.trans secondAnswer)

/-- A failed engine answers with itself. -/
theorem UnifiesTo.of_failed {engine : Engine} {equation : Equation} {report : Report}
    (answered : engine.UnifiesTo equation report) (failed : engine.failure ≠ none) :
    report.engine = engine := by
  obtain ⟨enough, answers⟩ := answered
  have answer := answers enough (Nat.le_refl enough)
  rw [unify_of_failed engine enough equation failed] at answer
  cases answer
  rfl

/-- What an active engine answers is what working off the equation leaves. -/
theorem UnifiesTo.worksOff {engine : Engine} {equation : Equation} {report : Report}
    (answered : engine.UnifiesTo equation report) (active : engine.failure = none) :
    ∃ visited, WorksOff equation engine [equation] visited report.engine := by
  obtain ⟨enough, answers⟩ := answered
  obtain ⟨visited, work, -⟩ := worksOff_of_unify active (answers enough (Nat.le_refl enough))
  exact ⟨visited, work⟩

/-- What can be worked off is answered. -/
theorem unifiesTo_of_worksOff {engine final : Engine} {equation : Equation}
    {visited : List Equation} (active : engine.failure = none)
    (work : WorksOff equation engine [equation] visited final) :
    ∃ report, engine.UnifiesTo equation report ∧ report.engine = final := by
  obtain ⟨budget, run, finished, last⟩ := Run.finish_of_worksOff work [⟨equation, 0⟩] [] rfl
  have answered : engine.unify budget equation = some run.report := by
    rw [unify_of_active engine budget equation active, finished]
    rfl
  exact ⟨run.report, unifiesTo_of_unify answered, last⟩

/-- A failed engine does not work on any equations. -/
theorem solve_of_failed (engine : Engine) (budget : Nat) (equations : List Equation)
    (failed : engine.failure ≠ none) : engine.solve budget equations = some ⟨engine, []⟩ := by
  have inactive : engine.isActive ≠ true := fun active => failed (engine.isActive_iff.mp active)
  cases equations with
  | nil => rfl
  | cons equation rest => simp only [solve, if_neg inactive]

/-- Further calls do not change the failure of an engine. -/
theorem failure_of_solve {engine : Engine} {budget : Nat} {equations : List Equation}
    {report : Report} {failure : Failure} (failed : engine.failure = some failure)
    (answered : engine.solve budget equations = some report) :
    report.engine.failure = some failure := by
  rw [solve_of_failed engine budget equations (failed ▸ nofun)] at answered
  cases answered
  exact failed

/-- An engine that is active after solving equations was active before. -/
theorem active_of_solve {engine : Engine} {budget : Nat} {equations : List Equation}
    {report : Report} (answered : engine.solve budget equations = some report)
    (active : report.engine.failure = none) : engine.failure = none := by
  cases failed : engine.failure with
  | none => rfl
  | some failure => exact nomatch (failure_of_solve failed answered).symm.trans active

/-- An active engine solves the first equation and then, with what it has become, the
others. -/
theorem solve_cons_eq_some_iff (engine : Engine) (budget : Nat) (equation : Equation)
    (rest : List Equation) (report : Report) (active : engine.failure = none) :
    engine.solve budget (equation :: rest) = some report ↔
      ∃ first later, engine.unify budget equation = some first ∧
        first.engine.solve budget rest = some later ∧
        report = ⟨later.engine, first.events ++ later.events⟩ := by
  simp only [solve, if_pos (engine.isActive_iff.mpr active), Option.bind_eq_bind,
    Option.bind_eq_some_iff, Option.pure_def, Option.some.injEq]
  constructor
  · rintro ⟨first, answered, later, solved, rfl⟩
    exact ⟨first, later, answered, solved, rfl⟩
  · rintro ⟨first, later, answered, solved, rfl⟩
    exact ⟨first, answered, later, solved, rfl⟩

/-- Solving one equation alone is a call to `unify`. -/
theorem solve_singleton {engine : Engine} {budget : Nat} {equation : Equation} {report : Report}
    (answered : engine.unify budget equation = some report) :
    engine.solve budget [equation] = some report := by
  cases failure : engine.failure with
  | some _ =>
    have failed : engine.failure ≠ none := failure ▸ nofun
    rw [unify_of_failed engine budget equation failed] at answered
    exact (solve_of_failed engine budget [equation] failed).trans answered
  | none =>
    rw [solve_cons_eq_some_iff engine budget equation [] report failure]
    refine ⟨report, ⟨report.engine, []⟩, answered, rfl, ?_⟩
    rw [List.append_nil]

/-- More budget does not change the answer to several equations. -/
theorem solve_mono {engine : Engine} {budget larger : Nat} {equations : List Equation}
    {report : Report} (answered : engine.solve budget equations = some report)
    (enough : budget ≤ larger) : engine.solve larger equations = some report := by
  induction equations generalizing engine report with
  | nil => exact answered
  | cons equation rest inductionHypothesis =>
    cases failure : engine.failure with
    | some _ =>
      have failed : engine.failure ≠ none := failure ▸ nofun
      rw [solve_of_failed engine _ _ failed] at answered ⊢
      exact answered
    | none =>
      obtain ⟨first, later, head, tail, rfl⟩ :=
        (solve_cons_eq_some_iff engine budget equation rest report failure).mp answered
      exact (solve_cons_eq_some_iff engine larger equation rest _ failure).mpr
        ⟨first, later, unify_mono head enough, inductionHypothesis tail, rfl⟩

/-- What is computed of an answer within one budget holds of the answer. -/
theorem SolvesTo.of_any {engine : Engine} {budget : Nat} {equations : List Equation}
    {report : Report} {property : Report → Bool} (solved : engine.SolvesTo equations report)
    (computed : (engine.solve budget equations).any property = true) : property report = true := by
  obtain ⟨enough, answers⟩ := solved
  obtain ⟨computedReport, answered, holds⟩ := (Option.any_eq_true property _).mp computed
  have same : report = computedReport := Option.some.inj
    ((answers (max enough budget) (Nat.le_max_left _ _)).symm.trans
      (solve_mono answered (Nat.le_max_right _ _)))
  exact same ▸ holds

/-- Solving the first equation and then the others, each to its end, solves them all. -/
theorem solvesTo_cons {engine : Engine} {equation : Equation} {rest : List Equation}
    {first later : Report} (active : engine.failure = none)
    (head : engine.UnifiesTo equation first) (tail : first.engine.SolvesTo rest later) :
    engine.SolvesTo (equation :: rest) ⟨later.engine, first.events ++ later.events⟩ := by
  obtain ⟨headBudget, headAnswers⟩ := head
  obtain ⟨tailBudget, tailAnswers⟩ := tail
  refine ⟨max headBudget tailBudget, fun budget enough => ?_⟩
  exact (solve_cons_eq_some_iff engine budget equation rest _ active).mpr
    ⟨first, later, headAnswers budget (by omega), tailAnswers budget (by omega), rfl⟩

/-- A variable that a resolved equation would bind is free, and its term is resolved. -/
theorem free_of_assigns {engine : Engine} {equation : Equation} {name : Name} {term : Term}
    (normal : engine.store.Normal) (assigns : (engine.resolve equation).Assigns name term) :
    engine.store.lookup? name = none ∧ engine.store.apply term = term := by
  have resolved (side : Term) : engine.store.apply (engine.store.apply side) =
      engine.store.apply side := normal.refinedBy_self side
  have free (side : Term) (shape : engine.store.apply side = .var name) :
      engine.store.lookup? name = none :=
    normal.lookup?_eq_none side name (shape ▸ (Term.mem_occurrences_var name name).mpr rfl)
  simp only [resolve, Equation.Assigns, Equation.mk.injEq] at assigns
  obtain ⟨⟨left, right⟩ | ⟨left, right⟩, -⟩ := assigns
  · exact ⟨free equation.lhs left, right ▸ resolved equation.rhs⟩
  · exact ⟨free equation.rhs right, left ▸ resolved equation.lhs⟩

/-- A cycle that a resolved equation runs into is one of a free variable and of the application
that it occurs in, which is resolved. -/
theorem exists_app_of_cyclic {engine : Engine} {equation : Equation} {name : Name} {term : Term}
    {cycle : Cycle} (normal : engine.store.Normal)
    (assigns : (engine.resolve equation).Assigns name term)
    (refused : engine.store.bind name term = .error cycle) :
    ∃ parts, term = .app parts ∧ cycle = ⟨name, .app parts⟩ ∧
      name ∈ (Term.app parts).occurrences ∧ engine.store.lookup? name = none ∧
      engine.store.apply (.app parts) = .app parts := by
  obtain ⟨free, resolved⟩ := free_of_assigns normal assigns
  obtain ⟨sameName, inside, given⟩ := Store.bind_eq_error engine.store name term cycle refused
  have sameTerm : cycle.term = term := by
    rw [resolved, or_self] at given
    exact given
  rw [sameTerm] at inside
  cases term with
  | app parts =>
    refine ⟨parts, rfl, ?_, inside, free, resolved⟩
    rw [← sameName, ← sameTerm]
  | var other =>
    -- A variable that occurs in a variable is that variable, and then nothing is bound.
    obtain rfl := (Term.mem_occurrences_var other name).mp inside
    exact absurd rfl assigns.2

/-- A move that binds a variable binds a free one to a resolved term. -/
theorem bound_of_move {engine : Engine} {top equation : Equation} {store : Store}
    (normal : engine.store.Normal)
    (move : engine.move top (engine.resolve equation) = .bound store) :
    ∃ name term, (engine.resolve equation).Assigns name term ∧
      engine.store.lookup? name = none ∧ engine.store.apply term = term ∧
      engine.store.bind name term = .ok store := by
  obtain ⟨name, term, assigns, -, success⟩ := (move ▸ engine.moved top _).of_bound
  obtain ⟨free, resolved⟩ := free_of_assigns normal assigns
  exact ⟨name, term, assigns, free, resolved, success⟩

/-- A move that binds a variable develops the store by this binding. -/
theorem developsInto_of_move {engine : Engine} {top equation : Equation} {store : Store}
    (normal : engine.store.Normal)
    (move : engine.move top (engine.resolve equation) = .bound store) :
    engine.store.DevelopsInto store := by
  obtain ⟨name, term, assigns, descends, success⟩ := (move ▸ engine.moved top _).of_bound
  obtain ⟨free, resolved⟩ := free_of_assigns normal assigns
  exact .bind engine.store store store name term free resolved descends success (.refl store)

namespace WorksOff

variable {top : Equation} {engine final : Engine} {pending visited : List Equation}

/-- Working off equations develops the store, also where it ends in a failure. -/
theorem developsInto (work : WorksOff top engine pending visited final)
    (normal : engine.store.Normal) : engine.store.DevelopsInto final.store := by
  induction work with
  | done engine => exact .refl engine.store
  | settled _ _ _ _ _ _ _ inductionHypothesis => exact inductionHypothesis normal
  | bound engine final equation pending visited store move _ inductionHypothesis =>
    have first : engine.store.DevelopsInto store := developsInto_of_move normal move
    exact first.trans (inductionHypothesis (first.normal normal))
  | decomposed _ _ _ _ _ _ _ _ _ inductionHypothesis => exact inductionHypothesis normal
  | refused engine _ _ _ _ => exact .refl engine.store

/-- Working off equations keeps the store in normal form and only refines it. -/
theorem normal_refinedBy (work : WorksOff top engine pending visited final)
    (normal : engine.store.Normal) :
    final.store.Normal ∧ engine.store.RefinedBy final.store :=
  ⟨(work.developsInto normal).normal normal, (work.developsInto normal).refinedBy normal⟩

end WorksOff

/-- A call to `unify` develops the store. -/
theorem unify_developsInto {engine : Engine} {budget : Nat} {equation : Equation}
    {report : Report} (normal : engine.store.Normal)
    (answered : engine.unify budget equation = some report) :
    engine.store.DevelopsInto report.engine.store := by
  cases failure : engine.failure with
  | some _ =>
    rw [unify_of_failed engine budget equation (failure ▸ nofun)] at answered
    cases answered
    exact .refl engine.store
  | none =>
    obtain ⟨visited, work, -⟩ := worksOff_of_unify failure answered
    exact work.developsInto normal

/-- A call to `solve` develops the store. -/
theorem solve_developsInto {engine : Engine} {budget : Nat} {equations : List Equation}
    {report : Report} (normal : engine.store.Normal)
    (answered : engine.solve budget equations = some report) :
    engine.store.DevelopsInto report.engine.store := by
  induction equations generalizing engine report with
  | nil =>
    cases answered
    exact .refl engine.store
  | cons equation rest inductionHypothesis =>
    cases failure : engine.failure with
    | some _ =>
      rw [solve_of_failed engine budget _ (failure ▸ nofun)] at answered
      cases answered
      exact .refl engine.store
    | none =>
      obtain ⟨first, later, head, tail, rfl⟩ :=
        (solve_cons_eq_some_iff engine budget equation rest report failure).mp answered
      have near := unify_developsInto normal head
      have far : first.engine.store.DevelopsInto later.engine.store :=
        inductionHypothesis (near.normal normal) tail
      exact near.trans far

/-- A call to `solve` keeps the store in normal form and only refines it. -/
theorem solve_normal_refinedBy {engine : Engine} {budget : Nat} {equations : List Equation}
    {report : Report} (normal : engine.store.Normal)
    (answered : engine.solve budget equations = some report) :
    report.engine.store.Normal ∧ engine.store.RefinedBy report.engine.store :=
  ⟨(solve_developsInto normal answered).normal normal,
    (solve_developsInto normal answered).refinedBy normal⟩

/-- Binding a variable directly, with or without success, keeps the store in normal form. -/
theorem normal_assign (engine : Engine) (name : Name) (term : Term)
    (normal : engine.store.Normal) : (engine.assign name term).engine.store.Normal := by
  rw [assign_eq]
  split
  · split
    · next store success => exact normal.bind success
    · exact normal
  · exact normal

/-- The store of a reachable engine is in normal form. -/
theorem Reachable.normal {engine : Engine} (reachable : Reachable engine) :
    engine.store.Normal := by
  induction reachable with
  | start entries store _ _ made => exact Store.Normal.ofEntries entries store made
  | unify _ _ _ _ _ answered inductionHypothesis =>
    exact (unify_developsInto inductionHypothesis answered).normal inductionHypothesis
  | solve _ _ _ _ _ answered inductionHypothesis =>
    exact (solve_developsInto inductionHypothesis answered).normal inductionHypothesis
  | assign engine name term _ inductionHypothesis =>
    exact engine.normal_assign name term inductionHypothesis

/-- An active engine without bindings whose rows take in fields under new row variables. -/
def boxEngine : Engine := .start .empty (some RowExtension.withNewRow) false

/-- `Box(label: c, width: w | r)`. -/
def wideBox : Term :=
  .app ⟨.symbol "Box", [],
    .ofList [(.symbol "label", .var (.symbol "c")), (.symbol "width", .var (.symbol "w"))],
    some (.var (.symbol "r"))⟩

/-- `Box(depth: d, label: Tag(w) | s)`. -/
def deepBox : Term :=
  .app ⟨.symbol "Box", [],
    .ofList [(.symbol "depth", .var (.symbol "d")),
      (.symbol "label", .app (.ofSubterms (.symbol "Tag") [.var (.symbol "w")]))],
    some (.var (.symbol "s"))⟩

/-- An engine that has just been started is reachable. -/
theorem boxEngine_reachable : Reachable boxEngine :=
  .start [] .empty (some RowExtension.withNewRow) false rfl

end RowUnification.Engine
