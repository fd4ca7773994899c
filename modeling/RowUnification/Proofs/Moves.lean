import RowUnification.Engine.Run
import RowUnification.Proofs.Alignment
import RowUnification.Proofs.Bindings

/-!
# Moves and the goals they leave

`Engine.Moved` lists what one move can do about a resolved equation, each case
with the test that leads to it. Later proofs take a move apart by these cases and
do not open its definition. A move that is refused leaves store and supply alone.

`Engine.WorksOff` is a whole run without its bookkeeping: the equations still to
be solved, the resolved equations treated, and the engine at the end. Depths and
the log record nothing that a move reads, so a run within some budget and this
relation say the same. Two lists of equations are worked off one after another,
and a failure drops what is left.

The relation says nothing about whether a run ends.
-/

namespace RowUnification

/-- One side is a variable and the other side is another term. -/
def Equation.Assigns (equation : Equation) (name : Name) (term : Term) : Prop :=
  (equation = ⟨.var name, term⟩ ∨ equation = ⟨term, .var name⟩) ∧ term ≠ .var name

namespace Engine

/-- What a move can do about a resolved equation. -/
inductive Moved (engine : Engine) (top : Equation) : Equation → Move → Prop
  /-- Both sides are the same variable. -/
  | settled (name : Name) : Moved engine top ⟨.var name, .var name⟩ .settled
  /-- A variable is bound to the other side; of two variables it is the greater one. -/
  | bound (equation : Equation) (name : Name) (term : Term) (store : Store)
      (assigns : equation.Assigns name term) (descends : ∀ other, term = .var other → other < name)
      (success : engine.store.bind name term = .ok store) :
      Moved engine top equation (.bound store)
  /-- A variable would stand for a term that contains it. -/
  | cyclic (equation : Equation) (name : Name) (term : Term) (cycle : Cycle)
      (assigns : equation.Assigns name term)
      (refused : engine.store.bind name term = .error cycle) :
      Moved engine top equation (.refused (.cyclic cycle (some top)) engine.store engine.supply)
  /-- The functors differ. -/
  | functorClash (lhs rhs : Application Term) (different : lhs.functor ≠ rhs.functor) :
      Moved engine top ⟨.app lhs, .app rhs⟩ (.refused
        (.mismatched (.functorClash lhs.functor rhs.functor (.app lhs) (.app rhs)) top)
        engine.store engine.supply)
  /-- The numbers of subterms differ. -/
  | arityClash (lhs rhs : Application Term) (functors : lhs.functor = rhs.functor)
      (different : lhs.subterms.length ≠ rhs.subterms.length) :
      Moved engine top ⟨.app lhs, .app rhs⟩ (.refused (.mismatched
        (.arityClash lhs.subterms.length rhs.subterms.length (.app lhs) (.app rhs)) top)
        engine.store engine.supply)
  /-- The records cannot be aligned. -/
  | unmatched (lhs rhs : Application Term) (leftover : Leftover)
      (functors : lhs.functor = rhs.functor)
      (arities : lhs.subterms.length = rhs.subterms.length)
      (misaligned : align engine.extension lhs rhs engine.supply =
        (.error leftover, engine.supply)) :
      Moved engine top ⟨.app lhs, .app rhs⟩ (.refused
        (.mismatched (.unmatchedLabels leftover.lhsOnly leftover.rhsOnly) top)
        engine.store engine.supply)
  /-- The applications come down to their parts. -/
  | decomposed (lhs rhs : Application Term) (equations : List Equation) (supply : FreshSupply)
      (functors : lhs.functor = rhs.functor)
      (arities : lhs.subterms.length = rhs.subterms.length)
      (aligned : align engine.extension lhs rhs engine.supply = (.ok equations, supply)) :
      Moved engine top ⟨.app lhs, .app rhs⟩
        (.decomposed (List.zipWith Equation.mk lhs.subterms rhs.subterms ++ equations) supply)

/-- A binding move binds the variable or reports the cycle. -/
theorem bindingMove_moved (engine : Engine) (top equation : Equation) (name : Name) (term : Term)
    (assigns : equation.Assigns name term) (descends : ∀ other, term = .var other → other < name) :
    Moved engine top equation (engine.bindingMove top name term) := by
  rw [bindingMove, Store.request_eq]
  cases outcome : engine.store.bind name term with
  | ok store => exact .bound equation name term store assigns descends outcome
  | error cycle => exact .cyclic equation name term cycle assigns outcome

/-- The cases cover every move. -/
theorem moved (engine : Engine) (top equation : Equation) :
    Moved engine top equation (engine.move top equation) := by
  obtain ⟨left, right⟩ := equation
  match left, right with
  | .var lhs, .var rhs =>
    simp only [move]
    split
    · next same => exact same ▸ .settled lhs
    · next different =>
      split
      · next before =>
        refine bindingMove_moved engine top _ lhs (.var rhs)
          ⟨Or.inl rfl, fun same => different (Term.var.inj same).symm⟩ fun other same => ?_
        exact Term.var.inj same ▸ before
      · next notBefore =>
        refine bindingMove_moved engine top _ rhs (.var lhs)
          ⟨Or.inr rfl, fun same => different (Term.var.inj same)⟩ fun other same => ?_
        have after : lhs < rhs := Decidable.byContradiction fun notAfter =>
          different (Name.eq_of_not_lt notAfter notBefore)
        exact Term.var.inj same ▸ after
  | .var lhs, .app rhs =>
    exact bindingMove_moved engine top _ lhs (.app rhs) ⟨Or.inl rfl, nofun⟩ nofun
  | .app lhs, .var rhs =>
    exact bindingMove_moved engine top _ rhs (.app lhs) ⟨Or.inr rfl, nofun⟩ nofun
  | .app lhs, .app rhs =>
    simp only [move, applicationMove]
    split
    · next different => exact .functorClash lhs rhs different
    · next functors =>
      split
      · next different => exact .arityClash lhs rhs (Decidable.not_not.mp functors) different
      · next arities =>
        split
        · next equations supply aligned =>
          exact .decomposed lhs rhs equations supply (Decidable.not_not.mp functors)
            (Decidable.not_not.mp arities) aligned
        · next leftover supply misaligned =>
          obtain ⟨-, rfl⟩ := eq_of_align_error misaligned
          exact .unmatched lhs rhs leftover (Decidable.not_not.mp functors)
            (Decidable.not_not.mp arities) misaligned

/-- A move that needs nothing finds the same variable twice. -/
theorem Moved.of_settled {engine : Engine} {top equation : Equation}
    (moved : Moved engine top equation .settled) :
    ∃ name, equation = ⟨.var name, .var name⟩ := by
  cases moved with
  | settled name => exact ⟨name, rfl⟩

/-- A binding move binds the variable on one side to the other side; of two variables it
binds the greater one. -/
theorem Moved.of_bound {engine : Engine} {top equation : Equation} {store : Store}
    (moved : Moved engine top equation (.bound store)) :
    ∃ name term, equation.Assigns name term ∧ (∀ other, term = .var other → other < name) ∧
      engine.store.bind name term = .ok store := by
  cases moved with
  | bound _ name term _ assigns descends success => exact ⟨name, term, assigns, descends, success⟩

/-- A decomposing move pairs the subterms and aligns the records of two applications. -/
theorem Moved.of_decomposed {engine : Engine} {top equation : Equation}
    {equations : List Equation} {supply : FreshSupply}
    (moved : Moved engine top equation (.decomposed equations supply)) :
    ∃ lhs rhs aligned, equation = ⟨.app lhs, .app rhs⟩ ∧ lhs.functor = rhs.functor ∧
      lhs.subterms.length = rhs.subterms.length ∧
      align engine.extension lhs rhs engine.supply = (.ok aligned, supply) ∧
      equations = List.zipWith Equation.mk lhs.subterms rhs.subterms ++ aligned := by
  cases moved with
  | decomposed lhs rhs aligned _ functors arities success =>
    exact ⟨lhs, rhs, aligned, rfl, functors, arities, success, rfl⟩

/-- A refused move leaves the store and the supply as they were. -/
theorem Moved.of_refused {engine : Engine} {top equation : Equation} {failure : Failure}
    {store : Store} {supply : FreshSupply}
    (moved : Moved engine top equation (.refused failure store supply)) :
    store = engine.store ∧ supply = engine.supply := by
  cases moved with
  | cyclic _ _ _ _ _ _ => exact ⟨rfl, rfl⟩
  | functorClash _ _ _ => exact ⟨rfl, rfl⟩
  | arityClash _ _ _ _ => exact ⟨rfl, rfl⟩
  | unmatched _ _ _ _ _ _ => exact ⟨rfl, rfl⟩

/-- An engine that refuses an equation keeps its store and its supply. -/
theorem refused_of_move {engine : Engine} {top equation : Equation} {failure : Failure}
    {store : Store} {supply : FreshSupply}
    (move : engine.move top equation = .refused failure store supply) :
    store = engine.store ∧ supply = engine.supply :=
  (move ▸ engine.moved top equation).of_refused

/-- An engine is active exactly if it has no failure. -/
theorem isActive_iff (engine : Engine) : engine.isActive = true ↔ engine.failure = none := by
  simp [isActive]

/-- The engine works off the equations in order, treats the listed resolved equations
on the way and ends as the last engine. -/
inductive WorksOff (top : Equation) : Engine → List Equation → List Equation → Engine → Prop
  /-- Nothing is left. -/
  | done (engine : Engine) : WorksOff top engine [] [] engine
  /-- The first equation needs nothing. -/
  | settled (engine final : Engine) (equation : Equation) (pending visited : List Equation)
      (move : engine.move top (engine.resolve equation) = .settled)
      (rest : WorksOff top engine pending visited final) :
      WorksOff top engine (equation :: pending) (engine.resolve equation :: visited) final
  /-- The first equation binds a variable. -/
  | bound (engine final : Engine) (equation : Equation) (pending visited : List Equation)
      (store : Store) (move : engine.move top (engine.resolve equation) = .bound store)
      (rest : WorksOff top { engine with store } pending visited final) :
      WorksOff top engine (equation :: pending) (engine.resolve equation :: visited) final
  /-- The first equation comes down to others, which come first from now on. -/
  | decomposed (engine final : Engine) (equation : Equation) (pending visited : List Equation)
      (equations : List Equation) (supply : FreshSupply)
      (move : engine.move top (engine.resolve equation) = .decomposed equations supply)
      (rest : WorksOff top { engine with supply } (equations ++ pending) visited final) :
      WorksOff top engine (equation :: pending) (engine.resolve equation :: visited) final
  /-- The first equation fails, and the others are dropped. -/
  | refused (engine : Engine) (equation : Equation) (pending : List Equation) (failure : Failure)
      (move : engine.move top (engine.resolve equation) =
        .refused failure engine.store engine.supply) :
      WorksOff top engine (equation :: pending) [engine.resolve equation]
        { engine with failure := some failure }

namespace WorksOff

variable {top : Equation}

/-- A list is worked off after another one that left the engine active. -/
theorem append {engine middle final : Engine} {first second visited later : List Equation}
    (near : WorksOff top engine first visited middle) (active : middle.failure = none)
    (far : WorksOff top middle second later final) :
    WorksOff top engine (first ++ second) (visited ++ later) final := by
  induction near with
  | done engine => exact far
  | settled engine middle equation pending visited move _ inductionHypothesis =>
    exact .settled engine final equation _ _ move (inductionHypothesis active far)
  | bound engine middle equation pending visited store move _ inductionHypothesis =>
    exact .bound engine final equation _ _ store move (inductionHypothesis active far)
  | decomposed engine middle equation pending visited equations supply move _
      inductionHypothesis =>
    refine .decomposed engine final equation _ _ equations supply move ?_
    exact (List.append_assoc equations pending second) ▸ inductionHypothesis active far
  | refused engine equation pending failure move => exact nomatch active

/-- A failure in the first list drops the second. -/
theorem append_failed {engine final : Engine} {first visited : List Equation}
    (second : List Equation) (work : WorksOff top engine first visited final)
    (active : engine.failure = none) (failed : final.failure ≠ none) :
    WorksOff top engine (first ++ second) visited final := by
  induction work with
  | done engine => exact absurd active failed
  | settled engine final equation pending visited move _ inductionHypothesis =>
    exact .settled engine final equation _ _ move (inductionHypothesis active failed)
  | bound engine final equation pending visited store move _ inductionHypothesis =>
    exact .bound engine final equation _ _ store move (inductionHypothesis active failed)
  | decomposed engine final equation pending visited equations supply move _
      inductionHypothesis =>
    refine .decomposed engine final equation _ _ equations supply move ?_
    exact (List.append_assoc equations pending second) ▸ inductionHypothesis active failed
  | refused engine equation pending failure move =>
    exact .refused engine equation (pending ++ second) failure move

/-- No work exchanges the row extension or the switch for tracing. -/
theorem frame {engine final : Engine} {pending visited : List Equation}
    (work : WorksOff top engine pending visited final) :
    final.extension = engine.extension ∧ final.trace = engine.trace := by
  induction work with
  | done engine => exact ⟨rfl, rfl⟩
  | settled _ _ _ _ _ _ _ inductionHypothesis => exact inductionHypothesis
  | bound _ _ _ _ _ _ _ _ inductionHypothesis => exact inductionHypothesis
  | decomposed _ _ _ _ _ _ _ _ _ inductionHypothesis => exact inductionHypothesis
  | refused engine equation pending failure move => exact ⟨rfl, rfl⟩

end WorksOff

end Engine

/-- The resolved equation that an event reports as treated. -/
def Event.equation? : Event → Option Equation
  | .failed _ => none
  | .visited goal _ => some goal.equation

namespace Run

variable {top : Equation}

/-- Without goals a run has ended, whatever the budget. -/
theorem finish_nil (budget : Nat) (engine : Engine) (events : List Event) :
    (Run.mk engine [] events).finish top budget = some ⟨engine, [], events⟩ := by
  cases budget <;> rfl

/-- A goal takes one move of the budget. -/
theorem finish_cons (budget : Nat) (engine : Engine) (goal : Goal) (rest : List Goal)
    (events : List Event) :
    (Run.mk engine (goal :: rest) events).finish top (budget + 1) =
      ((Run.mk engine (goal :: rest) events).advance top).finish top budget := rfl

/-- A larger budget does not change an answer. -/
theorem finish_mono {budget larger : Nat} {run final : Run}
    (answered : run.finish top budget = some final) (enough : budget ≤ larger) :
    run.finish top larger = some final := by
  fun_induction finish top budget run generalizing larger with
  | case1 budget run ended =>
    obtain ⟨engine, pending, events⟩ := run
    obtain rfl : pending = [] := ended
    rw [finish_nil]
    exact answered
  | case2 run goal rest waiting => contradiction
  | case3 run goal rest budget waiting inductionHypothesis =>
    obtain ⟨engine, pending, events⟩ := run
    obtain rfl : pending = goal :: rest := waiting
    obtain ⟨larger, rfl⟩ : ∃ less, larger = less + 1 := ⟨larger - 1, by omega⟩
    rw [finish_cons]
    exact inductionHypothesis answered (by omega)

/-- A run that answers has no goals left. -/
theorem pending_of_finish {budget : Nat} {run final : Run}
    (answered : run.finish top budget = some final) : final.pending = [] := by
  fun_induction finish top budget run with
  | case1 budget run ended =>
    cases answered
    exact ended
  | case2 run goal rest waiting => contradiction
  | case3 run goal rest budget waiting inductionHypothesis => exact inductionHypothesis answered

/-- A run within its budget works off its goals, and its events report the equations
treated in their order. -/
theorem worksOff_of_finish (budget : Nat) (run final : Run)
    (answered : run.finish top budget = some final) :
    ∃ visited, Engine.WorksOff top run.engine (run.pending.map Goal.equation) visited
        final.engine ∧
      final.events.reverse.filterMap Event.equation? =
        run.events.reverse.filterMap Event.equation? ++ visited := by
  fun_induction finish top budget run with
  | case1 budget run ended =>
    cases answered
    rw [ended]
    exact ⟨[], .done final.engine, (List.append_nil _).symm⟩
  | case2 run goal rest waiting => contradiction
  | case3 run goal rest budget waiting inductionHypothesis =>
    obtain ⟨engine, pending, events⟩ := run
    obtain rfl : pending = goal :: rest := waiting
    obtain ⟨visited, work, reported⟩ := inductionHypothesis answered
    simp only [advance] at work reported
    cases move : engine.move top (engine.resolve goal.equation) with
    | settled =>
      rw [move] at work reported
      refine ⟨_, .settled engine _ goal.equation _ visited move work, ?_⟩
      simpa [after, Event.equation?] using reported
    | bound store =>
      rw [move] at work reported
      refine ⟨_, .bound engine _ goal.equation _ visited store move work, ?_⟩
      simpa [after, Event.equation?] using reported
    | decomposed equations supply =>
      rw [move] at work reported
      refine ⟨_, .decomposed engine _ goal.equation _ visited equations supply move ?_, ?_⟩
      · simpa [after, Function.comp_def] using work
      · simpa [after, Event.equation?] using reported
    | refused failure store supply =>
      obtain ⟨rfl, rfl⟩ := Engine.refused_of_move move
      -- Nothing is left after a failure, so the rest of the run is over already.
      simp only [advance, move, after, finish_nil] at answered
      cases answered
      refine ⟨_, .refused engine goal.equation _ failure move, ?_⟩
      simp [List.filterMap_cons, Event.equation?]

/-- Whatever is worked off is worked off within some budget. -/
theorem finish_of_worksOff {engine final : Engine} {pending visited : List Equation}
    (work : Engine.WorksOff top engine pending visited final) (goals : List Goal)
    (events : List Event) (same : goals.map Goal.equation = pending) :
    ∃ budget run, (Run.mk engine goals events).finish top budget = some run ∧
      run.engine = final := by
  induction work generalizing goals events with
  | done engine =>
    obtain rfl := List.map_eq_nil_iff.mp same
    exact ⟨0, _, rfl, rfl⟩
  | settled engine final equation pending visited move _ inductionHypothesis =>
    obtain ⟨goal, rest, rfl, rfl, restSame⟩ := List.map_eq_cons_iff.mp same
    obtain ⟨budget, run, answered, last⟩ := inductionHypothesis rest
      (.visited ⟨engine.resolve goal.equation, goal.depth⟩ none :: events) restSame
    refine ⟨budget + 1, run, ?_, last⟩
    simpa only [finish, advance, move, after] using answered
  | bound engine final equation pending visited store move _ inductionHypothesis =>
    obtain ⟨goal, rest, rfl, rfl, restSame⟩ := List.map_eq_cons_iff.mp same
    obtain ⟨budget, run, answered, last⟩ := inductionHypothesis rest
      (.visited ⟨engine.resolve goal.equation, goal.depth⟩ (some store) :: events) restSame
    refine ⟨budget + 1, run, ?_, last⟩
    simpa only [finish, advance, move, after] using answered
  | decomposed engine final equation pending visited equations supply move _
      inductionHypothesis =>
    obtain ⟨goal, rest, rfl, rfl, restSame⟩ := List.map_eq_cons_iff.mp same
    obtain ⟨budget, run, answered, last⟩ := inductionHypothesis
      (equations.map (⟨·, goal.depth + 1⟩) ++ rest)
      (.visited ⟨engine.resolve goal.equation, goal.depth⟩ none :: events)
      (by simp [restSame, Function.comp_def])
    refine ⟨budget + 1, run, ?_, last⟩
    simpa only [finish, advance, move, after] using answered
  | refused engine equation pending failure move =>
    obtain ⟨goal, rest, rfl, rfl, restSame⟩ := List.map_eq_cons_iff.mp same
    refine ⟨1, ⟨{ engine with failure := some failure }, [],
      .visited ⟨engine.resolve goal.equation, goal.depth⟩ none :: .failed failure :: events⟩,
      ?_, rfl⟩
    simp only [finish, advance, move, after]

end Run

end RowUnification
