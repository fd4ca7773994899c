import RowUnification.Engine.Log
import RowUnification.Proofs.Calls

/-!
# Tracing adds to the log and changes nothing else

No move reads the switch for tracing, so an engine with tracing off makes the same run as
one with tracing on: it ends with the same budgets, with the same store, failure and supply,
and an observer sees the same events. The switch decides what the log makes of them. With
tracing off it has the failures alone; with tracing on it also has the records of progress, in
the order of the visits.
-/

namespace RowUnification

namespace Engine

/-- The engine with tracing on or off. -/
def withTrace (engine : Engine) (trace : Bool) : Engine := { engine with trace }

end Engine

namespace Run

/-- The run with tracing on or off. -/
def withTrace (run : Run) (trace : Bool) : Run := { run with engine := run.engine.withTrace trace }

/-- One move of a run does not read the switch for tracing. -/
theorem advance_withTrace (run : Run) (top : Equation) (trace : Bool) :
    (run.withTrace trace).advance top = (run.advance top).withTrace trace := by
  obtain ⟨engine, pending, events⟩ := run
  cases pending with
  | nil => rfl
  | cons goal rest =>
    have same : (engine.withTrace trace).move top ((engine.withTrace trace).resolve goal.equation) =
        engine.move top (engine.resolve goal.equation) := rfl
    simp only [advance, withTrace, same]
    cases engine.move top (engine.resolve goal.equation) <;> rfl

/-- A run with the switch changed ends with the same budgets and in the same way. -/
theorem finish_withTrace (budget : Nat) (top : Equation) (run : Run) (trace : Bool) :
    (run.withTrace trace).finish top budget =
      (run.finish top budget).map (·.withTrace trace) := by
  induction budget generalizing run with
  | zero =>
    obtain ⟨engine, pending, events⟩ := run
    cases pending <;> rfl
  | succ budget inductionHypothesis =>
    obtain ⟨engine, pending, events⟩ := run
    cases pending with
    | nil => rfl
    | cons goal rest =>
      rw [finish_cons, ← inductionHypothesis, ← advance_withTrace]
      rfl

end Run

/-- The report of an engine with tracing on or off. -/
def Report.withTrace (report : Report) (trace : Bool) : Report :=
  { report with engine := report.engine.withTrace trace }

/-- A call to an engine with the switch changed has the same answer, but for the switch. -/
theorem Engine.unify_withTrace (engine : Engine) (trace : Bool) (budget : Nat)
    (equation : Equation) :
    (engine.withTrace trace).unify budget equation =
      (engine.unify budget equation).map (·.withTrace trace) := by
  have begins : Run.start (engine.withTrace trace) equation =
      (Run.start engine equation).withTrace trace := rfl
  simp only [unify, begins, Run.finish_withTrace, Option.map_map]
  rfl

/-- A call leaves the switch as it is. -/
theorem Engine.trace_of_unify {engine : Engine} {budget : Nat} {equation : Equation}
    {report : Report} (answered : engine.unify budget equation = some report) :
    report.engine.trace = engine.trace := by
  -- Changing the switch to what it is changes nothing, so the report has it as well.
  have same : engine.unify budget equation =
      (engine.unify budget equation).map (·.withTrace engine.trace) :=
    engine.unify_withTrace engine.trace budget equation
  rw [answered] at same
  exact congrArg (·.engine.trace) (Option.some.inj same)

namespace Log

/-- The records of progress that events leave in the log of a traced engine. -/
def progress (events : List Event) : List Record :=
  (events.flatMap (recordsOf true)).filter (·.level = .info)

@[simp] theorem progress_nil : progress [] = [] := rfl

@[simp] theorem progress_append (first second : List Event) :
    progress (first ++ second) = progress first ++ progress second := by
  simp [progress]

/-- A failure is no progress. -/
@[simp] theorem progress_failed (failure : Failure) (events : List Event) :
    progress (.failed failure :: events) = progress events := by
  simp [progress, recordsOf]

/-- A visit is reported with its goal and then with the store, if it bound a variable. -/
@[simp] theorem progress_visited (goal : Goal) (bound : Option Store) (events : List Event) :
    progress (.visited goal bound :: events) =
      ⟨.info, engineTarget, goalText goal⟩ ::
        (bound.toList.map fun store => ⟨.info, engineTarget, bindingText goal.depth store⟩) ++
          progress events := by
  cases bound <;> simp [progress, recordsOf]

/-- Without the records of progress the log of an event is that with tracing off. -/
theorem filter_recordsOf (trace : Bool) (event : Event) :
    (recordsOf trace event).filter (·.level ≠ .info) = recordsOf false event := by
  cases event with
  | failed failure => rfl
  | visited goal bound => cases trace <;> cases bound <;> rfl

end Log

/-- The log of a traced engine has the records of progress in the order of the events. -/
theorem Report.filter_records_of_traced (report : Report) (traced : report.engine.trace = true) :
    report.records.filter (·.level = .info) = Log.progress report.events := by
  rw [records, traced, Log.progress]

/-- With tracing off the log is what remains without the records of progress. -/
theorem Report.records_withTrace_false (report : Report) :
    (report.withTrace false).records = report.records.filter (·.level ≠ .info) := by
  simp only [records, List.filter_flatMap, Log.filter_recordsOf]
  rfl

end RowUnification
