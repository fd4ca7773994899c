import RowUnification.Proofs.Sessions

/-!
# What a recorded failure shows

A move is refused on resolved sides, and the store is not changed any more after it. So
the evidence that a failure keeps is a mismatch under the last store too: its terms are
resolved, a variable that would stand for a term that contains it is free, two
applications that clash differ in what is recorded of them, and fields that are left over
on both sides have no label in common.

`Failure.EvidentIn` says this for each kind of failure. Which row extension the engine has
does not matter, since whatever it makes is resolved like any other term before it is
compared. The equation of a failure is the one that the failing call to `unify` was made
with, also where `solve` made that call.
-/

namespace RowUnification

/-- The evidence of a failure is a mismatch of terms that the store has resolved. -/
def Failure.EvidentIn (store : Store) : Failure → Prop
  | cyclic cycle _ =>
    cycle.name ∉ store.keys ∧ cycle.name ∈ cycle.term.occurrences ∧
      store.apply cycle.term = cycle.term ∧ ∃ parts, cycle.term = .app parts
  | mismatched (.functorClash lhsFunctor rhsFunctor lhs rhs) _ =>
    store.apply lhs = lhs ∧ store.apply rhs = rhs ∧ lhsFunctor ≠ rhsFunctor ∧
      ∃ left right, lhs = .app left ∧ rhs = .app right ∧
        left.functor = lhsFunctor ∧ right.functor = rhsFunctor
  | mismatched (.arityClash lhsArity rhsArity lhs rhs) _ =>
    store.apply lhs = lhs ∧ store.apply rhs = rhs ∧ lhsArity ≠ rhsArity ∧
      ∃ left right, lhs = .app left ∧ rhs = .app right ∧ left.functor = right.functor ∧
        left.subterms.length = lhsArity ∧ right.subterms.length = rhsArity
  | mismatched (.unmatchedLabels lhsOnly rhsOnly) _ =>
    (∀ label, lhsOnly.contains label = true → rhsOnly.contains label = false) ∧
      (lhsOnly.isEmpty = false ∨ rhsOnly.isEmpty = false) ∧
      ∀ value ∈ lhsOnly.values ++ rhsOnly.values, store.apply value = value

/-- A field beyond another record is a field of the record. -/
theorem Application.mem_children_of_mem_beyond {record other : Application Term} {value : Term}
    (member : value ∈ (record.beyond other).values) : value ∈ record.children := by
  have field := SortedMap.mem_values_of_mem_values_keep record.fields _ value member
  exact (Application.mem_children_iff record value).mpr (Or.inr (Or.inl field))

/-- No label is beyond the other record on both sides. -/
theorem Application.contains_beyond_disjoint (lhs rhs : Application Term) (label : Name)
    (inLeft : (lhs.beyond rhs).contains label = true) :
    (rhs.beyond lhs).contains label = false := by
  simp only [SortedMap.contains, get?_beyond] at inLeft ⊢
  cases found : lhs.fields.get? label with
  | none => simp [found] at inLeft
  | some value => rfl

namespace Engine

/-- A refused move leaves evidence that holds under the store it found. -/
theorem Moved.evidentIn_of_refused {engine : Engine} {top equation : Equation}
    {failure : Failure} {store : Store} {supply : FreshSupply} (normal : engine.store.Normal)
    (moved : engine.Moved top (engine.resolve equation) (.refused failure store supply)) :
    failure.EvidentIn engine.store := by
  have left : engine.store.apply (engine.resolve equation).lhs = (engine.resolve equation).lhs :=
    normal.refinedBy_self equation.lhs
  have right : engine.store.apply (engine.resolve equation).rhs = (engine.resolve equation).rhs :=
    normal.refinedBy_self equation.rhs
  generalize shape : engine.resolve equation = resolved at moved left right
  cases moved with
  | cyclic _ name term cycle assigns refused =>
    obtain ⟨parts, -, rfl, inside, free, resolved⟩ :=
      exists_app_of_cyclic normal (shape ▸ assigns) refused
    exact ⟨(normal.indexed.lookup?_eq_none_iff name).mp free, inside, resolved, parts, rfl⟩
  | functorClash lhs rhs different =>
    exact ⟨left, right, different, lhs, rhs, rfl, rfl, rfl, rfl⟩
  | arityClash lhs rhs functors different =>
    exact ⟨left, right, different, lhs, rhs, rfl, rfl, functors, rfl, rfl⟩
  | unmatched lhs rhs leftover functors arities misaligned =>
    have uneven := uneven_of_align misaligned
    rw [(eq_of_align_error misaligned).1]
    rw [Leftover.between_eq] at uneven ⊢
    refine ⟨Application.contains_beyond_disjoint lhs rhs, ?_, ?_⟩
    · rw [Leftover.isEmpty, Bool.and_eq_true, not_and_or] at uneven
      simpa only [Bool.not_eq_true] using uneven
    · intro value member
      rcases List.mem_append.mp member with ofLeft | ofRight
      · exact normal.apply_child lhs left value (Application.mem_children_of_mem_beyond ofLeft)
      · exact normal.apply_child rhs right value (Application.mem_children_of_mem_beyond ofRight)

/-- Work that ends in a failure names the top equation and leaves evidence that holds under the
last store: the failing move is the last one, and it binds nothing. -/
theorem WorksOff.evidentIn {top : Equation} {engine final : Engine}
    {pending visited : List Equation} (work : WorksOff top engine pending visited final)
    (normal : engine.store.Normal) (active : engine.failure = none) {failure : Failure}
    (failed : final.failure = some failure) :
    failure.top = some top ∧ failure.EvidentIn final.store := by
  induction work with
  | done engine => exact nomatch active.symm.trans failed
  | settled engine final equation pending visited move rest inductionHypothesis =>
    exact inductionHypothesis normal active failed
  | bound engine final equation pending visited store move rest inductionHypothesis =>
    have boundNormal : store.Normal := (developsInto_of_move normal move).normal normal
    exact inductionHypothesis boundNormal active failed
  | decomposed engine final equation pending visited equations supply move rest
      inductionHypothesis =>
    exact inductionHypothesis normal active failed
  | refused engine equation pending last move =>
    obtain rfl := Option.some.inj failed
    have moved : engine.Moved top (engine.resolve equation)
        (.refused last engine.store engine.supply) :=
      move ▸ engine.moved top (engine.resolve equation)
    have evident : last.EvidentIn engine.store := moved.evidentIn_of_refused normal
    exact ⟨moved.top_of_refused, evident⟩

/-- The equations that a call asks to solve. -/
def Call.equations : Call → List Equation
  | unify equation => [equation]
  | solve equations => equations
  | assign _ _ => []

/-- A call other than a direct binding solves its equations in order. -/
theorem solve_of_perform {engine : Engine} {budget : Nat} {call : Call} {report : Report}
    (solving : ∀ name term, call ≠ .assign name term)
    (answered : engine.perform budget call = some report) :
    engine.solve budget call.equations = some report := by
  cases call with
  | unify equation => exact solve_singleton answered
  | solve equations => exact answered
  | assign name term => exact absurd rfl (solving name term)

/-- Where solving equations fails, those before some equation were solved, and the call to
`unify` with that one failed. -/
theorem exists_failed_of_solve {engine : Engine} {budget : Nat} {equations : List Equation}
    {report : Report} (active : engine.failure = none)
    (answered : engine.solve budget equations = some report)
    (failed : report.engine.failure ≠ none) :
    ∃ solved top rest middle last, equations = solved ++ top :: rest ∧
      engine.solve budget solved = some middle ∧ middle.engine.failure = none ∧
      middle.engine.unify budget top = some last ∧ last.engine = report.engine := by
  induction equations generalizing engine report with
  | nil =>
    cases answered
    exact absurd active failed
  | cons equation rest inductionHypothesis =>
    obtain ⟨first, later, head, tail, rfl⟩ :=
      (solve_cons_eq_some_iff engine budget equation rest report active).mp answered
    cases failure : first.engine.failure with
    | some _ =>
      rw [solve_of_failed first.engine budget rest (failure ▸ nofun)] at tail
      cases tail
      exact ⟨[], equation, rest, ⟨engine, []⟩, first, rfl, rfl, active, head, rfl⟩
    | none =>
      obtain ⟨solved, top, others, middle, last, rfl, before, middleActive, answer, same⟩ :=
        inductionHypothesis failure tail failed
      refine ⟨equation :: solved, top, others, ⟨middle.engine, first.events ++ middle.events⟩,
        last, rfl, ?_, middleActive, answer, same⟩
      exact (solve_cons_eq_some_iff engine budget equation solved _ active).mpr
        ⟨first, middle, head, before, rfl⟩

/-- If solving equations, or one equation, fails on a reachable engine, the failure names the
equation of the very call to `unify` that failed, all equations before it having been solved.
Whatever calls follow, the failure stays, and its evidence is a mismatch under the store that is
left: the variable of a cycle is free and occurs in an application that is resolved; clashing
applications are resolved and have the two different functors, or with the same functor the two
different numbers of subterms, that are recorded; fields left over have resolved values, no label
on both sides, and are not missing on both. -/
theorem failed_call_leaves_evidence (engine : Engine) (reachable : Reachable engine)
    (active : engine.isActive = true) (budget : Nat) (call : Call) (report : Report)
    (failure : Failure) (solving : ∀ name term, call ≠ .assign name term)
    (answered : engine.perform budget call = some report)
    (failed : report.engine.failure = some failure) :
    (∃ solved top rest middle last, call.equations = solved ++ top :: rest ∧
      engine.solve budget solved = some middle ∧ middle.engine.isActive = true ∧
      middle.engine.unify budget top = some last ∧ last.engine = report.engine ∧
      failure.top = some top) ∧
    ∀ laterBudget calls, ∃ final, report.engine.performAll laterBudget calls = some final ∧
      final.failure = some failure ∧ failure.EvidentIn final.store := by
  have start : engine.failure = none := engine.isActive_iff.mp active
  have frozen : report.engine.failure ≠ none := by
    rw [failed]
    exact nofun
  obtain ⟨solved, top, rest, middle, last, split, before, middleActive, answer, same⟩ :=
    exists_failed_of_solve start (solve_of_perform solving answered) frozen
  obtain ⟨middleNormal, -⟩ := solve_normal_refinedBy reachable.normal before
  obtain ⟨visited, work, -⟩ := worksOff_of_unify middleActive answer
  rw [same] at work
  obtain ⟨names, evident⟩ := work.evidentIn middleNormal middleActive failed
  constructor
  · exact ⟨solved, top, rest, middle, last, split, before,
      middle.engine.isActive_iff.mpr middleActive, answer, same, names⟩
  · intro laterBudget calls
    exact ⟨report.engine, performAll_of_failed report.engine frozen laterBudget calls, failed,
      evident⟩

/-- `Box(label: c, width: w)`. -/
def narrowBox : Term :=
  .app ⟨.symbol "Box", [],
    .ofList [(.symbol "label", .var (.symbol "c")), (.symbol "width", .var (.symbol "w"))], none⟩

/-- Once the open boxes are solved, the first one has a depth that a closed box with the other two
fields cannot take in: it came with the row, and it is what the failure records. -/
theorem failed_call_leaves_evidence_boxes : ∃ report failure,
    boxEngine.perform 9 (.solve [⟨wideBox, deepBox⟩, ⟨wideBox, narrowBox⟩]) = some report ∧
      report.engine.failure = some failure ∧
      failure = .mismatched (.unmatchedLabels
        (.ofList [(.symbol "depth", .var (.symbol "d"))]) .nil) ⟨wideBox, narrowBox⟩ ∧
      failure.EvidentIn report.engine.store := by
  have outcome : ((boxEngine.perform 9 (.solve [⟨wideBox, deepBox⟩, ⟨wideBox, narrowBox⟩])).map
      fun report => report.engine.failure) = some (some (.mismatched (.unmatchedLabels
        (.ofList [(.symbol "depth", .var (.symbol "d"))]) .nil) ⟨wideBox, narrowBox⟩)) := by
    decide +kernel
  obtain ⟨report, answered, failed⟩ := Option.map_eq_some_iff.mp outcome
  obtain ⟨-, stays⟩ := failed_call_leaves_evidence boxEngine boxEngine_reachable rfl 9 _ report _
    (by simp) answered failed
  obtain ⟨final, after, -, evident⟩ := stays 0 []
  obtain rfl := Option.some.inj after
  exact ⟨report, _, answered, failed, rfl, evident⟩

end Engine

end RowUnification
