import RowUnification.Failure
import RowUnification.Row.Alignment

/-!
# The unification engine

An engine holds the store, the supply of new row variables and the row extension,
if any. It is active until its first failure; from then on nothing changes it.

One move treats one equation whose sides the store has resolved. Equal variables
need nothing. Of two variables the greater is bound to the lesser, whichever side
it stands on, and a variable against an application is bound to it. Two
applications with the same functor and as many subterms are decomposed: their
subterms are equated in order, and then their records are aligned.
-/

namespace RowUnification

/-- A unification engine. -/
structure Engine where
  /-- The bindings made so far. -/
  store : Store
  /-- The first failure; none while the engine is active. -/
  failure : Option Failure
  /-- What lets rows take in fields; without it, records need the same labels. -/
  extension : Option RowExtension
  /-- Where new row variables come from. -/
  supply : FreshSupply
  /-- Whether every equation treated is logged. -/
  trace : Bool

/-- What one move does about an equation. -/
inductive Move where
  /-- Both sides are the same variable. -/
  | settled
  /-- A variable was bound. -/
  | bound (store : Store)
  /-- The equation comes down to further ones; making them may use up indices. -/
  | decomposed (equations : List Equation) (supply : FreshSupply)
  /-- The equation cannot be solved; the store and the supply are left as given. -/
  | refused (failure : Failure) (store : Store) (supply : FreshSupply)

namespace Engine

/-- An active engine with the given bindings and a supply from index zero on. -/
def start (store : Store) (extension : Option RowExtension) (trace : Bool) : Engine where
  store := store
  failure := none
  extension := extension
  supply := ⟨0⟩
  trace := trace

/-- Whether the engine has not failed. -/
def isActive (engine : Engine) : Bool := engine.failure.isNone

/-- The move that binds a variable. -/
def bindingMove (engine : Engine) (top : Equation) (name : Name) (term : Term) : Move :=
  match engine.store.request name term with
  | (.ok (), store) => .bound store
  | (.error cycle, store) => .refused (.cyclic cycle (some top)) store engine.supply

/-- The move for two applications: functors first, then the number of subterms, then
the labels. -/
def applicationMove (engine : Engine) (top : Equation) (lhs rhs : Application Term) : Move :=
  if lhs.functor ≠ rhs.functor then
    .refused (.mismatched (.functorClash lhs.functor rhs.functor (.app lhs) (.app rhs)) top)
      engine.store engine.supply
  else if lhs.subterms.length ≠ rhs.subterms.length then
    .refused (.mismatched
      (.arityClash lhs.subterms.length rhs.subterms.length (.app lhs) (.app rhs)) top)
      engine.store engine.supply
  else
    match align engine.extension lhs rhs engine.supply with
    | (.ok equations, supply) =>
      .decomposed (List.zipWith Equation.mk lhs.subterms rhs.subterms ++ equations) supply
    | (.error leftover, supply) =>
      .refused (.mismatched (.unmatchedLabels leftover.lhsOnly leftover.rhsOnly) top)
        engine.store supply

/-- The move for an equation whose sides are resolved, on behalf of the top equation. -/
def move (engine : Engine) (top equation : Equation) : Move :=
  match equation.lhs, equation.rhs with
  | .var lhs, .var rhs =>
    if lhs = rhs then .settled
    else if rhs < lhs then engine.bindingMove top lhs (.var rhs)
    else engine.bindingMove top rhs (.var lhs)
  | .var lhs, .app rhs => engine.bindingMove top lhs (.app rhs)
  | .app lhs, .var rhs => engine.bindingMove top rhs (.app lhs)
  | .app lhs, .app rhs => engine.applicationMove top lhs rhs

/-- The equation with both sides resolved through the store. -/
def resolve (engine : Engine) (equation : Equation) : Equation :=
  ⟨engine.store.apply equation.lhs, engine.store.apply equation.rhs⟩

end Engine

end RowUnification
