import RowUnification.Engine.Run

/-!
# Listings and log records

A store is listed as one line for each binding. An engine reads as its listing
while it is active and as its failure afterwards. The log has a record for every
failure; with tracing on, it also has one for every goal treated, indented by its
depth, and after a binding one with the listing under the same indentation.
-/

namespace RowUnification

/-- The bindings in order, with the given text between them. -/
def Store.listing (store : Store) (separator : String) : String :=
  String.intercalate separator <|
    store.entries.map fun entry => entry.1.render ++ " => " ++ entry.2.render

namespace Engine

/-- The message of the failure; empty while the engine is active. -/
def failureText (engine : Engine) : String := (engine.failure.map Failure.message).getD ""

/-- The listing of an active engine, the failure of another. -/
def describe (engine : Engine) : String :=
  if engine.isActive then engine.store.listing "\n" else engine.failureText

end Engine

namespace Log

/-- How important a record is. -/
inductive Level where
  /-- Progress of a traced engine. -/
  | info
  /-- A failure. -/
  | debug
deriving DecidableEq

/-- A log record. -/
structure Record where
  /-- How important it is. -/
  level : Level
  /-- The component that it comes from. -/
  target : String
  /-- The text. -/
  message : String
deriving DecidableEq

/-- The component that all records come from. -/
def engineTarget : String := "unifier_engine"

/-- Two blanks for each level of depth. -/
def indent (depth : Nat) : String := String.ofList (List.replicate (2 * depth) ' ')

/-- The goal that was treated. -/
def goalText (goal : Goal) : String :=
  indent goal.depth ++ "unify " ++ goal.equation.lhs.render ++ " == " ++ goal.equation.rhs.render

/-- The bindings after a goal, each line indented below a backslash. -/
def bindingText (depth : Nat) (store : Store) : String :=
  let line := "\n" ++ indent depth ++ "  "
  indent depth ++ "\\" ++ line ++ store.listing line

/-- The records of one event. -/
def recordsOf (trace : Bool) : Event → List Record
  | .failed failure => [⟨.debug, engineTarget, "unification failed: " ++ failure.message⟩]
  | .visited goal bound =>
    if trace then
      ⟨.info, engineTarget, goalText goal⟩ ::
        bound.toList.map fun store => ⟨.info, engineTarget, bindingText goal.depth store⟩
    else []

end Log

/-- The log records of a call, in order. -/
def Report.records (report : Report) : List Log.Record :=
  report.events.flatMap (Log.recordsOf report.engine.trace)

end RowUnification
