import RowUnification.Proofs.Decomposition
import RowUnification.Proofs.Tracing

/-!
# The run is a recursion

A run keeps one list of goals. The same work can be told without one: an equation is
resolved and treated, and what it comes down to is treated in turn, each equation by the
same procedure, before the caller goes on with the engine that this left. The first failure
stops all callers. `Engine.recurse` is this procedure. It has a limit on the depth of its
calls where a run has a budget of moves, and `none` says that the limit was too small.

The goals that a run puts in front of its others are worked off before these are looked at
again, so treating an equation recursively is a stretch of the run that leaves the other
goals alone. `moves_descend` and `moves_inTurn` say so, by induction on the limit and along
the equations. Conversely a run that ends has ended each such stretch before, which gives
the recursion by induction on the budget (`exists_inTurn_of_finish`).

What the procedure did is a tree of visits. Its pre-order, indented by depth, is the progress
that a traced run logs.
-/

namespace RowUnification

/-- What treating an equation came to: the equation as resolved, the store after the move, if
that bound a variable, and the visits to the equations that it came down to. -/
inductive Visit where
  /-- A visit with the visits that it led to. -/
  | mk (equation : Equation) (bound : Option Store) (parts : List Visit)

namespace Visit

open Log

mutual

/-- The visits of a tree in pre-order, each with its equation and then the bindings, if it
made one; parts are one level deeper. -/
def records (depth : Nat) : Visit → List Record
  | .mk equation bound parts =>
    ⟨.info, engineTarget, goalText ⟨equation, depth⟩⟩ ::
      (bound.toList.map fun store => ⟨.info, engineTarget, bindingText depth store⟩) ++
        recordsOfAll (depth + 1) parts

/-- The records of visits one after another. -/
def recordsOfAll (depth : Nat) : List Visit → List Record
  | [] => []
  | visit :: rest => visit.records depth ++ recordsOfAll depth rest

end

end Visit

namespace Engine

/-- Treats equations one after another until the engine fails. -/
def inTurn (treat : Engine → Equation → Option (Engine × Visit)) (engine : Engine) :
    List Equation → Option (Engine × List Visit)
  | [] => some (engine, [])
  | equation :: rest =>
    if engine.isActive then do
      let (next, visit) ← treat engine equation
      let (final, visits) ← next.inTurn treat rest
      return (final, visit :: visits)
    else some (engine, [])

/-- Treats an equation on behalf of the top equation, with calls nested at most as deep as
the limit says: resolves it, makes its move and treats what it comes down to in turn. -/
def descend (top : Equation) : Nat → Engine → Equation → Option (Engine × Visit)
  | 0, _, _ => none
  | limit + 1, engine, equation =>
    let resolved := engine.resolve equation
    match engine.move top resolved with
    | .settled => some (engine, .mk resolved none [])
    | .bound store => some ({ engine with store }, .mk resolved (some store) [])
    | .refused failure store supply =>
      some ({ engine with store, supply, failure := some failure }, .mk resolved none [])
    | .decomposed equations supply => do
      let (final, parts) ← { engine with supply }.inTurn (descend top limit) equations
      return (final, .mk resolved none parts)

/-- Solves an equation recursively, with calls nested at most as deep as the limit says. -/
def recurse (limit : Nat) (engine : Engine) (equation : Equation) :
    Option (Engine × List Visit) :=
  engine.inTurn (descend equation limit) [equation]

section InTurn

variable {treat : Engine → Equation → Option (Engine × Visit)}

/-- A failed engine treats nothing. -/
theorem inTurn_of_failed {engine : Engine} (failed : engine.isActive = false)
    (equations : List Equation) : engine.inTurn treat equations = some (engine, []) := by
  cases equations <;> simp [inTurn, failed]

/-- An active engine treats the first equation and then, with what it has become, the
others. -/
theorem inTurn_cons_eq_some_iff {engine : Engine} (active : engine.isActive = true)
    (equation : Equation) (rest : List Equation) (final : Engine) (visits : List Visit) :
    engine.inTurn treat (equation :: rest) = some (final, visits) ↔
      ∃ next visit later, treat engine equation = some (next, visit) ∧
        next.inTurn treat rest = some (final, later) ∧ visits = visit :: later := by
  simp only [inTurn, if_pos active, Option.bind_eq_bind, Option.bind_eq_some_iff, Option.pure_def,
    Option.some.injEq, Prod.exists, Prod.mk.injEq]
  constructor
  · rintro ⟨next, visit, head, _, later, tail, rfl, rfl⟩
    exact ⟨next, visit, later, head, tail, rfl⟩
  · rintro ⟨next, visit, later, head, tail, rfl⟩
    exact ⟨next, visit, head, final, later, tail, rfl, rfl⟩

/-- A treatment that answers whenever another does gives its answers in turn. -/
theorem inTurn_mono {larger : Engine → Equation → Option (Engine × Visit)}
    (covers : ∀ engine equation result, treat engine equation = some result →
      larger engine equation = some result)
    {engine : Engine} {equations : List Equation} {result : Engine × List Visit}
    (answered : engine.inTurn treat equations = some result) :
    engine.inTurn larger equations = some result := by
  induction equations generalizing engine result with
  | nil => exact answered
  | cons equation rest inductionHypothesis =>
    cases active : engine.isActive with
    | false =>
      rw [inTurn_of_failed active] at answered ⊢
      exact answered
    | true =>
      obtain ⟨final, visits⟩ := result
      rw [inTurn_cons_eq_some_iff active] at answered ⊢
      obtain ⟨next, visit, later, head, tail, same⟩ := answered
      exact ⟨next, visit, later, covers engine equation _ head, inductionHypothesis tail, same⟩

end InTurn

/-- What an equation comes down to is treated in turn with one call less. -/
theorem descend_of_decomposed {top equation : Equation} {engine : Engine}
    {equations : List Equation} {supply : FreshSupply}
    (move : engine.move top (engine.resolve equation) = .decomposed equations supply)
    (limit : Nat) :
    descend top (limit + 1) engine equation =
      ({ engine with supply }.inTurn (descend top limit) equations).map
        fun (final, parts) => (final, .mk (engine.resolve equation) none parts) := by
  simp only [descend, move]
  cases inTurn (descend top limit) { engine with supply } equations <;> rfl

/-- A larger limit does not change an answer. -/
theorem descend_mono {top : Equation} {limit larger : Nat} (enough : limit ≤ larger)
    (engine : Engine) (equation : Equation) (result : Engine × Visit)
    (answered : descend top limit engine equation = some result) :
    descend top larger engine equation = some result := by
  induction limit generalizing larger engine equation result with
  | zero => contradiction
  | succ limit inductionHypothesis =>
    obtain ⟨larger, rfl⟩ : ∃ less, larger = less + 1 := ⟨larger - 1, by omega⟩
    cases move : engine.move top (engine.resolve equation) with
    | decomposed equations supply =>
      rw [descend_of_decomposed move, Option.map_eq_some_iff] at answered ⊢
      obtain ⟨parts, inner, same⟩ := answered
      exact ⟨parts, inTurn_mono (inductionHypothesis (by omega)) inner, same⟩
    | settled => simpa only [descend, move] using answered
    | bound store => simpa only [descend, move] using answered
    | refused failure store supply => simpa only [descend, move] using answered

end Engine

namespace Run

variable {top : Equation}

/-- The run that has these goals left, unless its engine has failed. -/
def resume (engine : Engine) (goals : List Goal) (events : List Event) : Run :=
  ⟨engine, if engine.isActive then goals else [], events⟩

/-- The goals for equations that are all at one depth. -/
def goalsAt (depth : Nat) (equations : List Equation) : List Goal := equations.map (⟨·, depth⟩)

/-- An active engine has its goals left. -/
theorem resume_of_active {engine : Engine} (active : engine.isActive = true) (goals : List Goal)
    (events : List Event) : resume engine goals events = ⟨engine, goals, events⟩ := by
  rw [resume, if_pos active]

/-- A failed engine has no goals left. -/
theorem resume_of_failed {engine : Engine} (failed : engine.isActive = false) (goals : List Goal)
    (events : List Event) : resume engine goals events = ⟨engine, [], events⟩ := by
  rw [resume, if_neg (ne_true_of_eq_false failed)]

/-- After as many moves the first run is the second, whatever budget remains. -/
def MovesTo (top : Equation) (moves : Nat) (first second : Run) : Prop :=
  ∀ budget, first.finish top (budget + moves) = second.finish top budget

/-- Without a move a run stays. -/
theorem MovesTo.refl (run : Run) : MovesTo top 0 run run := fun _ => rfl

/-- Moves are made one after another. -/
theorem MovesTo.trans {first second third : Run} {moves others : Nat}
    (one : MovesTo top moves first second) (other : MovesTo top others second third) :
    MovesTo top (others + moves) first third := by
  intro budget
  rw [← Nat.add_assoc, one, other]

/-- A run that ends with a budget ends so from any run on its way. -/
theorem MovesTo.finish {first second final : Run} {moves budget : Nat}
    (stretch : MovesTo top moves first second) (ended : first.finish top budget = some final) :
    second.finish top (budget - moves) = some final := by
  rw [← stretch]
  exact finish_mono ended (by omega)

end Run

open Run Log

namespace Engine

variable {top : Equation}

/-- The treatment of an equation is a stretch of the run: some moves take the equation off
the goals, leave those behind it and add events with the same records of progress. -/
def Moves (top : Equation) (treat : Engine → Equation → Option (Engine × Visit)) : Prop :=
  ∀ engine equation next visit, engine.isActive = true →
    treat engine equation = some (next, visit) →
    ∀ depth rest events, ∃ moves added, progress added = visit.records depth ∧
      MovesTo top moves (resume engine (goalsAt depth [equation] ++ rest) events)
        (resume next rest (added.reverse ++ events))

/-- If treating an equation is a stretch of the run, so is treating several in turn. -/
theorem moves_inTurn {treat : Engine → Equation → Option (Engine × Visit)}
    (treated : Moves top treat) {engine final : Engine} {equations : List Equation}
    {visits : List Visit} (answered : engine.inTurn treat equations = some (final, visits))
    (depth : Nat) (rest : List Goal) (events : List Event) :
    ∃ moves added, progress added = Visit.recordsOfAll depth visits ∧
      MovesTo top moves (resume engine (goalsAt depth equations ++ rest) events)
        (resume final rest (added.reverse ++ events)) := by
  induction equations generalizing engine visits events with
  | nil =>
    cases answered
    exact ⟨0, [], by simp [Visit.recordsOfAll], .refl _⟩
  | cons equation others inductionHypothesis =>
    cases active : engine.isActive with
    | false =>
      rw [inTurn_of_failed active] at answered
      cases answered
      refine ⟨0, [], by simp [Visit.recordsOfAll], ?_⟩
      rw [resume_of_failed active, resume_of_failed active]
      exact .refl _
    | true =>
      obtain ⟨next, visit, later, head, tail, rfl⟩ :=
        (inTurn_cons_eq_some_iff active equation others final visits).mp answered
      obtain ⟨moves, added, seen, first⟩ :=
        treated engine equation next visit active head depth (goalsAt depth others ++ rest) events
      obtain ⟨otherMoves, otherAdded, otherSeen, second⟩ :=
        inductionHypothesis tail (added.reverse ++ events)
      refine ⟨otherMoves + moves, added ++ otherAdded, ?_, ?_⟩
      · rw [progress_append, seen, otherSeen, Visit.recordsOfAll]
      · rw [List.reverse_append, List.append_assoc]
        exact first.trans second

/-- A goal of an active engine takes one move. -/
theorem movesTo_after {engine : Engine} (active : engine.isActive = true) (equation : Equation)
    (depth : Nat) (rest : List Goal) (events : List Event) (move : Move)
    (made : engine.move top (engine.resolve equation) = move) :
    MovesTo top 1 (resume engine (goalsAt depth [equation] ++ rest) events)
      ((Run.mk engine rest events).after ⟨engine.resolve equation, depth⟩ rest move) := by
  intro budget
  rw [resume_of_active active, ← made]
  exact finish_cons budget engine ⟨equation, depth⟩ rest events

/-- What an equation comes down to takes its place, one level deeper. -/
theorem movesTo_parts {engine : Engine} (active : engine.isActive = true) {equation : Equation}
    {equations : List Equation} {supply : FreshSupply}
    (made : engine.move top (engine.resolve equation) = .decomposed equations supply)
    (depth : Nat) (rest : List Goal) (events : List Event) :
    MovesTo top 1 (resume engine (goalsAt depth [equation] ++ rest) events)
      (resume { engine with supply } (goalsAt (depth + 1) equations ++ rest)
        (.visited ⟨engine.resolve equation, depth⟩ none :: events)) := by
  have same : { engine with supply }.isActive = true := active
  rw [resume_of_active same]
  exact movesTo_after active equation depth rest events _ made

/-- A visit without parts is the progress of one event. -/
theorem progress_single (equation : Equation) (bound : Option Store) (depth : Nat) :
    progress [.visited ⟨equation, depth⟩ bound] = (Visit.mk equation bound []).records depth := by
  rw [progress_visited, progress_nil, Visit.records, Visit.recordsOfAll]

/-- An equation that does not come down to others is treated within one call, which is one
move of the run. -/
theorem exists_single_of_move {engine : Engine} (active : engine.isActive = true)
    (equation : Equation) (whole : ¬ ∃ equations supply,
      engine.move top (engine.resolve equation) = .decomposed equations supply) :
    ∃ next visit, (∀ limit, descend top (limit + 1) engine equation = some (next, visit)) ∧
      ∀ depth rest events, ∃ added, progress added = visit.records depth ∧
        MovesTo top 1 (resume engine (goalsAt depth [equation] ++ rest) events)
          (resume next rest (added.reverse ++ events)) := by
  cases made : engine.move top (engine.resolve equation) with
  | settled =>
    refine ⟨engine, .mk (engine.resolve equation) none [],
      fun limit => by simp only [descend, made], fun depth rest events => ?_⟩
    refine ⟨[.visited ⟨engine.resolve equation, depth⟩ none], progress_single _ _ _, ?_⟩
    rw [resume_of_active active rest]
    exact movesTo_after active equation depth rest events _ made
  | bound store =>
    refine ⟨{ engine with store }, .mk (engine.resolve equation) (some store) [],
      fun limit => by simp only [descend, made], fun depth rest events => ?_⟩
    refine ⟨[.visited ⟨engine.resolve equation, depth⟩ (some store)], progress_single _ _ _, ?_⟩
    have same : { engine with store }.isActive = true := active
    rw [resume_of_active same rest]
    exact movesTo_after active equation depth rest events _ made
  | refused failure store supply =>
    refine ⟨{ engine with store, supply, failure := some failure }, .mk (engine.resolve equation) none [],
      fun limit => by simp only [descend, made], fun depth rest events => ?_⟩
    refine ⟨[.failed failure, .visited ⟨engine.resolve equation, depth⟩ none],
      (progress_failed failure _).trans (progress_single _ _ _), ?_⟩
    exact movesTo_after active equation depth rest events _ made
  | decomposed equations supply => exact absurd ⟨equations, supply, made⟩ whole

/-- Treating an equation recursively is a stretch of the run. -/
theorem moves_descend (top : Equation) (limit : Nat) : Moves top (descend top limit) := by
  induction limit with
  | zero =>
    intro engine equation next visit active answered
    contradiction
  | succ limit inductionHypothesis =>
    intro engine equation next visit active answered depth rest events
    by_cases comesDown : ∃ equations supply,
        engine.move top (engine.resolve equation) = .decomposed equations supply
    · obtain ⟨equations, supply, made⟩ := comesDown
      rw [descend_of_decomposed made, Option.map_eq_some_iff] at answered
      obtain ⟨⟨final, parts⟩, inner, same⟩ := answered
      cases same
      obtain ⟨moves, added, seen, stretch⟩ := moves_inTurn inductionHypothesis inner (depth + 1)
        rest (.visited ⟨engine.resolve equation, depth⟩ none :: events)
      refine ⟨moves + 1, .visited ⟨engine.resolve equation, depth⟩ none :: added, ?_, ?_⟩
      · rw [progress_visited, seen, Visit.records]
      · rw [List.reverse_cons, List.append_assoc]
        exact (movesTo_parts active made depth rest events).trans stretch
    · obtain ⟨only, single, answers, stretch⟩ := exists_single_of_move active equation comesDown
      rw [answers limit] at answered
      cases answered
      exact ⟨1, stretch depth rest events⟩

/-- If the first equation is treated within one limit and the others within another, all are
treated within a common one. -/
theorem exists_inTurn_cons {engine next : Engine} {equation : Equation} {others : List Equation}
    {visit : Visit} {result : Engine × List Visit} {headLimit tailLimit : Nat}
    (active : engine.isActive = true)
    (head : descend top headLimit engine equation = some (next, visit))
    (tail : next.inTurn (descend top tailLimit) others = some result) :
    ∃ limit result, engine.inTurn (descend top limit) (equation :: others) = some result := by
  obtain ⟨final, visits⟩ := result
  refine ⟨max headLimit tailLimit, (final, visit :: visits), ?_⟩
  rw [inTurn_cons_eq_some_iff active]
  exact ⟨next, visit, visits, descend_mono (Nat.le_max_left _ _) _ _ _ head,
    inTurn_mono (descend_mono (Nat.le_max_right _ _)) tail, rfl⟩

/-- A run that ends has treated its equations recursively first. -/
theorem exists_inTurn_of_finish (top : Equation) (budget : Nat) (engine : Engine)
    (equations : List Equation) (depth : Nat) (rest : List Goal) (events : List Event) (final : Run)
    (ended : (resume engine (goalsAt depth equations ++ rest) events).finish top budget =
      some final) :
    ∃ limit result, engine.inTurn (descend top limit) equations = some result := by
  induction budget using Nat.strongRecOn generalizing engine equations depth rest events with
  | ind budget inductionHypothesis =>
    cases equations with
    | nil => exact ⟨0, (engine, []), rfl⟩
    | cons equation others =>
      cases active : engine.isActive with
      | false => exact ⟨0, (engine, []), inTurn_of_failed active _⟩
      | true =>
        cases budget with
        | zero =>
          rw [resume_of_active active] at ended
          contradiction
        | succ budget =>
          by_cases comesDown : ∃ equations supply,
              engine.move top (engine.resolve equation) = .decomposed equations supply
          · -- The parts take fewer moves, and so do the others from the engine they leave.
            obtain ⟨equations, supply, made⟩ := comesDown
            have inParts :=
              (movesTo_parts active made depth (goalsAt depth others ++ rest) events).finish ended
            obtain ⟨partsLimit, ⟨middle, parts⟩, inner⟩ :=
              inductionHypothesis budget (Nat.lt_succ_self _) _ _ _ _ _ inParts
            obtain ⟨moves, added, -, stretch⟩ := moves_inTurn (moves_descend top partsLimit) inner
              (depth + 1) (goalsAt depth others ++ rest)
              (.visited ⟨engine.resolve equation, depth⟩ none :: events)
            obtain ⟨othersLimit, result, tail⟩ :=
              inductionHypothesis (budget - moves) (by omega) _ _ _ _ _ (stretch.finish inParts)
            have head : descend top (partsLimit + 1) engine equation =
                some (middle, .mk (engine.resolve equation) none parts) := by
              rw [descend_of_decomposed made, inner, Option.map_some]
            exact exists_inTurn_cons active head tail
          · obtain ⟨next, visit, answers, stretch⟩ :=
              exists_single_of_move active equation comesDown
            obtain ⟨added, -, moved⟩ := stretch depth (goalsAt depth others ++ rest) events
            obtain ⟨othersLimit, result, tail⟩ :=
              inductionHypothesis budget (Nat.lt_succ_self _) _ _ _ _ _ (moved.finish ended)
            exact exists_inTurn_cons active (answers 0) tail

/-- What the recursion answers is the answer, and it has seen the same progress. -/
theorem unifiesTo_of_recurse {limit : Nat} {engine final : Engine} {equation : Equation}
    {visits : List Visit} (answered : engine.recurse limit equation = some (final, visits)) :
    ∃ events, engine.UnifiesTo equation ⟨final, events⟩ ∧
      progress events = Visit.recordsOfAll 0 visits := by
  obtain ⟨moves, added, seen, stretch⟩ :=
    moves_inTurn (moves_descend equation limit) answered 0 [] []
  have ended : (Run.start engine equation).finish equation moves =
      some ⟨final, [], added.reverse⟩ := by
    have last : resume final [] (added.reverse ++ []) = ⟨final, [], added.reverse⟩ := by
      rw [resume, ite_self, List.append_nil]
    have moved := stretch 0
    rwa [Nat.zero_add, last, finish_nil] at moved
  have answer : engine.unify moves equation = some ⟨final, added⟩ := by
    rw [unify, ended, Option.map_some, Run.report, List.reverse_reverse]
  exact ⟨added, unifiesTo_of_unify answer, seen⟩

/-- What is answered is answered by the recursion. -/
theorem UnifiesTo.exists_recurse {engine : Engine} {equation : Equation} {report : Report}
    (answered : engine.UnifiesTo equation report) :
    ∃ limit result, engine.recurse limit equation = some result := by
  obtain ⟨enough, answers⟩ := answered
  obtain ⟨final, ended, -⟩ := Option.map_eq_some_iff.mp (answers enough (Nat.le_refl enough))
  exact exists_inTurn_of_finish equation enough engine [equation] 0 [] [] final ended

/-- A call is answered exactly if solving the equation recursively ends, whatever the engine and
its row extension. Both leave the same engine, with the same store, failure and supply, and the
progress that a traced call logs is the visits of the recursion in pre-order, each indented by its
depth and followed by the bindings if it made one. An engine with tracing off makes the same call
and its log is what remains without the progress. The equations that a decomposition makes are
those of the subterms in order, then the common fields by label, the rows filled and the tails. -/
theorem unify_is_recursion (engine : Engine) (equation : Equation) :
    ((∃ report, engine.UnifiesTo equation report) ↔
      ∃ limit result, engine.recurse limit equation = some result) ∧
    (∀ report limit final visits, engine.UnifiesTo equation report →
      engine.recurse limit equation = some (final, visits) →
        report.engine = final ∧
        (engine.trace = true →
          report.records.filter (·.level = .info) = Visit.recordsOfAll 0 visits)) ∧
    (∀ budget, (engine.withTrace false).unify budget equation =
      (engine.unify budget equation).map (·.withTrace false)) ∧
    (∀ report : Report,
      (report.withTrace false).records = report.records.filter (·.level ≠ .info)) ∧
    ∀ top goal equations supply, engine.move top goal = .decomposed equations supply →
      ∃ lhs rhs common fillings tails, goal = ⟨.app lhs, .app rhs⟩ ∧
        Application.Breakdown lhs rhs common fillings tails ∧
        equations = List.zipWith Equation.mk lhs.subterms rhs.subterms ++
          (common.values ++ fillings ++ tails) := by
  refine ⟨⟨?ends, ?answers⟩, ?_, (engine.unify_withTrace false · equation),
    Report.records_withTrace_false, ?order⟩
  case ends =>
    rintro ⟨report, answered⟩
    exact answered.exists_recurse
  case answers =>
    rintro ⟨limit, ⟨final, visits⟩, answered⟩
    obtain ⟨events, answer, -⟩ := unifiesTo_of_recurse answered
    exact ⟨⟨final, events⟩, answer⟩
  case order =>
    intro top goal equations supply made
    obtain ⟨lhs, rhs, aligned, same, -, -, success, split⟩ :=
      (made ▸ engine.moved top goal).of_decomposed
    obtain ⟨common, fillings, tails, breakdown, parts⟩ := exists_breakdown_of_align success
    exact ⟨lhs, rhs, common, fillings, tails, same, breakdown, parts ▸ split⟩
  · intro report limit final visits answered recursive
    obtain ⟨events, answer, seen⟩ := unifiesTo_of_recurse recursive
    obtain rfl := answered.unique answer
    refine ⟨rfl, fun traced => ?_⟩
    obtain ⟨enough, answers⟩ := answered
    have kept := trace_of_unify (answers enough (Nat.le_refl enough))
    rw [Report.filter_records_of_traced _ (kept.trans traced), seen]

/-- `Traced(p, Pair(q), p) == Traced(Only, Pair(Other), Other)`: the last subterms clash. -/
def clashingLast : Equation where
  lhs := .app (.ofSubterms (.symbol "Traced")
    [.var (.symbol "p"), .app (.ofSubterms (.symbol "Pair") [.var (.symbol "q")]),
      .var (.symbol "p")])
  rhs := .app (.ofSubterms (.symbol "Traced")
    [.app (.ofSubterms (.symbol "Only") []),
      .app (.ofSubterms (.symbol "Pair") [.app (.ofSubterms (.symbol "Other") [])]),
      .app (.ofSubterms (.symbol "Other") [])])

/-- The progress on these terms from no bindings. -/
def clashingProgress : List String :=
  ["unify Traced(p, Pair(q), p) == Traced(Only, Pair(Other), Other)",
    "  unify p == Only", "  \\\n    p => Only",
    "  unify Pair(q) == Pair(Other)",
    "    unify q == Other", "    \\\n      p => Only\n      q => Other",
    "  unify Only == Other"]

/-- An engine with tracing on. -/
def tracedEngine : Engine := boxEngine.withTrace true

/-- Three subterms are treated in turn, the second one down to its own subterm. Each binding is
followed by all bindings so far, and the failure leaves them in the store. -/
theorem unify_is_recursion_clashing : ∃ report final visits,
    tracedEngine.UnifiesTo clashingLast report ∧
      tracedEngine.recurse 3 clashingLast = some (final, visits) ∧ report.engine = final ∧
      final.isActive = false ∧ final.store.keys = [.symbol "p", .symbol "q"] ∧
      (report.records.filter (·.level = .info)).map Log.Record.message = clashingProgress := by
  obtain ⟨⟨final, visits⟩, recursive⟩ := Option.isSome_iff_exists.mp (by decide +kernel :
    (tracedEngine.recurse 3 clashingLast).isSome = true)
  have outcome : (tracedEngine.recurse 3 clashingLast).all (fun (final, visits) =>
      final.isActive = false ∧ final.store.keys = [.symbol "p", .symbol "q"] ∧
        (Visit.recordsOfAll 0 visits).map Log.Record.message = clashingProgress) = true := by
    decide +kernel
  rw [recursive] at outcome
  obtain ⟨inactive, keys, messages⟩ := of_decide_eq_true outcome
  obtain ⟨terminates, agrees, -⟩ := unify_is_recursion tracedEngine clashingLast
  obtain ⟨report, answered⟩ := terminates.mpr ⟨3, _, recursive⟩
  obtain ⟨same, logged⟩ := agrees report 3 final visits answered recursive
  exact ⟨report, final, visits, answered, recursive, same, inactive, keys,
    logged rfl ▸ messages⟩

end Engine

end RowUnification
