import RowUnification.Engine.Basic

/-!
# Runs of the engine

An equation is solved by working off a list of goals, the first of them first. A
goal is resolved through the store as it is by then, and what it comes down to
goes to the front, one level deeper. The run ends when no goal is left, or at the
first failure. On the way it notes what an observer can see: every goal that was
treated, with the store right after a binding, and the failure, which is noted
before the goal that it came from.

How many moves a run takes depends on the store and the row extension and is not
computed in advance, so a run is given a budget of moves. `none` says that the
budget was too small; an answer does not depend on how much of it was left.
-/

namespace RowUnification

/-- An equation still to be solved and its depth below the top equation. -/
structure Goal where
  /-- The equation. -/
  equation : Equation
  /-- How many decompositions led to it. -/
  depth : Nat
deriving DecidableEq

/-- What an observer of the engine sees. -/
inductive Event where
  /-- The engine failed. -/
  | failed (failure : Failure)
  /-- A goal was treated. Its equation is as resolved before; the store is the one after
  the move, if that bound a variable. -/
  | visited (goal : Goal) (bound : Option Store)
deriving DecidableEq

/-- An engine at work on a list of goals. -/
structure Run where
  /-- The engine. -/
  engine : Engine
  /-- The goals still to be treated, the next one first. -/
  pending : List Goal
  /-- What was seen so far, the latest first. -/
  events : List Event

/-- What a call to the engine comes to. -/
structure Report where
  /-- The engine afterwards. -/
  engine : Engine
  /-- What was seen, in order. -/
  events : List Event

namespace Run

/-- A run that has the top equation as its only goal; a failed engine has none. -/
def start (engine : Engine) (top : Equation) : Run where
  engine := engine
  pending := if engine.isActive then [⟨top, 0⟩] else []
  events := []

/-- The run after the first goal, which is resolved already, and its move. -/
def after (run : Run) (goal : Goal) (rest : List Goal) : Move → Run
  | .settled => ⟨run.engine, rest, .visited goal none :: run.events⟩
  | .bound store =>
    ⟨{ run.engine with store }, rest, .visited goal (some store) :: run.events⟩
  | .decomposed equations supply =>
    ⟨{ run.engine with supply }, equations.map (⟨·, goal.depth + 1⟩) ++ rest,
      .visited goal none :: run.events⟩
  | .refused failure store supply =>
    ⟨{ run.engine with store, supply, failure := some failure }, [],
      .visited goal none :: .failed failure :: run.events⟩

/-- Treats the first goal, if there is one. -/
def advance (run : Run) (top : Equation) : Run :=
  match run.pending with
  | [] => run
  | goal :: rest =>
    let resolved := run.engine.resolve goal.equation
    run.after ⟨resolved, goal.depth⟩ rest (run.engine.move top resolved)

/-- Works off the goals with at most the given number of moves. -/
def finish (top : Equation) : Nat → Run → Option Run
  | budget, run =>
    match run.pending, budget with
    | [], _ => some run
    | _ :: _, 0 => none
    | _ :: _, budget + 1 => finish top budget (run.advance top)

/-- What a finished run comes to. -/
def report (run : Run) : Report := ⟨run.engine, run.events.reverse⟩

end Run

namespace Engine

/-- Solves one equation. -/
def unify (budget : Nat) (engine : Engine) (equation : Equation) : Option Report :=
  ((Run.start engine equation).finish equation budget).map Run.report

/-- Solves equations in order and stops at the first failure. Each has the whole budget. -/
def solve (budget : Nat) (engine : Engine) : List Equation → Option Report
  | [] => some ⟨engine, []⟩
  | equation :: rest =>
    if engine.isActive then do
      let first ← engine.unify budget equation
      let later ← first.engine.solve budget rest
      return ⟨later.engine, first.events ++ later.events⟩
    else some ⟨engine, []⟩

/-- Binds a variable without solving anything. -/
def assign (engine : Engine) (name : Name) (term : Term) : Report :=
  if engine.isActive then
    match engine.store.request name term with
    | (.ok (), store) => ⟨{ engine with store }, []⟩
    | (.error cycle, store) =>
      ⟨{ engine with store, failure := some (.cyclic cycle none) },
        [.failed (.cyclic cycle none)]⟩
  else ⟨engine, []⟩

/-- What a binding comes to in terms of the store: granted or refused, the rest of the engine
stays, and a refusal keeps the store as well. -/
theorem assign_eq (engine : Engine) (name : Name) (term : Term) :
    engine.assign name term =
      if engine.isActive then
        match engine.store.bind name term with
        | .ok store => ⟨{ engine with store }, []⟩
        | .error cycle =>
          ⟨{ engine with failure := some (.cyclic cycle none) }, [.failed (.cyclic cycle none)]⟩
      else ⟨engine, []⟩ := by
  rw [assign, Store.request_eq]
  cases engine.store.bind name term with
  | ok store => rfl
  | error cycle => rfl

end Engine

end RowUnification
