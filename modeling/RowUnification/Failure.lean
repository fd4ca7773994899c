import RowUnification.Equation
import RowUnification.Store
import RowUnification.Term.Rendering

/-!
# Failures

A unification fails on a cyclic binding or on two applications whose shapes do
not match. A failure keeps the evidence, with terms as the store resolved them,
and the equation that was to be solved. The message names the evidence and adds
the equation where that says more.
-/

namespace RowUnification

/-- Two applications that no substitution makes equal, or that leave fields over. -/
inductive Mismatch where
  /-- The functors differ. -/
  | functorClash (lhsFunctor rhsFunctor : Name) (lhs rhs : Term)
  /-- The numbers of positional subterms differ. -/
  | arityClash (lhsArity rhsArity : Nat) (lhs rhs : Term)
  /-- One side has fields that the other cannot take in. -/
  | unmatchedLabels (lhsOnly rhsOnly : NameMap Term)
deriving DecidableEq

/-- Why a unification failed. A binding that was asked for directly has no equation. -/
inductive Failure where
  /-- A variable would stand for a term that contains it. -/
  | cyclic (cycle : Cycle) (top : Option Equation)
  /-- Two applications do not match. -/
  | mismatched (mismatch : Mismatch) (top : Equation)
deriving DecidableEq

/-- The equation in parentheses, unless the given texts are those of its sides. -/
def Equation.context (top : Equation) (lhs rhs : String) : String :=
  if top.lhs.render = lhs ∧ top.rhs.render = rhs then ""
  else " (in " ++ top.lhs.render ++ " == " ++ top.rhs.render ++ ")"

/-- The variable and the term that it occurs in. -/
def Cycle.message (cycle : Cycle) : String :=
  "occurs check failed: " ++ cycle.name.render ++ " occurs in " ++ cycle.term.render

/-- The fields that are left over on one side; nothing if there are none. -/
def unmatchedText (side : String) (fields : NameMap Term) : List String :=
  if fields.isEmpty then []
  else ["unmatched " ++ side ++ " labels (" ++ renderFields fields ++ ")"]

namespace Failure

/-- Whether the failure comes from the shapes of terms and not from a cycle. -/
def isStructural : Failure → Bool
  | cyclic .. => false
  | mismatched .. => true

/-- The equation that was to be solved. -/
def top : Failure → Option Equation
  | cyclic _ top => top
  | mismatched _ top => some top

/-- What went wrong, for a reader. -/
def message : Failure → String
  | cyclic cycle none => cycle.message
  | cyclic cycle (some top) => cycle.message ++ top.context cycle.name.render cycle.term.render
  | mismatched (.functorClash lhsFunctor rhsFunctor lhs rhs) top =>
    "failed to unify " ++ lhs.render ++ " and " ++ rhs.render ++ ": functor " ++
      lhsFunctor.render ++ " differs from " ++ rhsFunctor.render ++
      top.context lhs.render rhs.render
  | mismatched (.arityClash lhsArity rhsArity lhs rhs) top =>
    "failed to unify " ++ lhs.render ++ " and " ++ rhs.render ++ ": " ++
      toString lhsArity ++ " subterm(s) against " ++ toString rhsArity ++
      top.context lhs.render rhs.render
  | mismatched (.unmatchedLabels lhsOnly rhsOnly) top =>
    "failed to unify " ++ top.lhs.render ++ " and " ++ top.rhs.render ++ ": " ++
      String.intercalate "; " (unmatchedText "left" lhsOnly ++ unmatchedText "right" rhsOnly)

end Failure

end RowUnification
