import RowUnification.Proofs.KnownNames
import RowUnification.Proofs.LooseTerms

/-!
# Runs with rows end

Extending the rows of two records makes two variables and equations that need not
weigh less. What counts is where the new tails can go. Say that a number of names
covers the equations at hand. If the shared equations of two records bound nothing,
their two rows are exchanged for the two tails and one of these for the other, so one
name less remains. If the shared equations did bind something, fewer names remained
before the rows were treated; the tails are kept apart from them as spare and settle.
By induction on the number of names every list of equations is worked off, and between
two extensions the equations weigh less with each move.

This needs that the variables still to be made are new. The store and the equations may
name some of them, but only finitely many; until the supply has passed these, each
extension uses up some of them.
-/

namespace RowUnification.Engine

variable {top : Equation}

section Extension

variable {engine middle : Engine} {names middleNames : Finset Name}
  {first second : Application Term} {firstRow secondRow : Name}

/-- Two tails that settled one after another are equated, and of what was known before, this
touches them alone. -/
theorem concludes_settled_tails {one two : Engine} {oneNames twoNames : Finset Name}
    {firstTail secondTail : Name} {number : Nat} (solves : SolvesWithin top number)
    (count : twoNames.card ≤ number) (toOne : Advances [firstTail] middle middleNames one oneNames)
    (toTwo : Advances [secondTail] one oneNames two twoNames) (active : two.failure = none)
    (firstTrails : Trails middle.supply.next [firstTail] one oneNames (.var firstTail))
    (secondTrails : Trails one.supply.next [secondTail] two twoNames (.var secondTail))
    (secondKnown : secondTail.IsBelow middle.supply.next) (tails : secondTail ≠ firstTail) :
    Concludes top two [⟨.var firstTail, .var secondTail⟩] fun final =>
      ∃ laterNames, Advances [firstTail, secondTail] middle middleNames final laterNames := by
  have both := toOne.trans [firstTail, secondTail] toTwo (by simp)
  -- What is touched at the end was known before the first tail settled or counts for nothing.
  have finish (final : Engine) (laterNames : Finset Name) (touched : List Name)
      (far : Advances touched two twoNames final laterNames)
      (touchable : ∀ name ∈ touched, name.IsBelow middle.supply.next →
        name ∈ [firstTail, secondTail]) :
      ∃ laterNames, Advances [firstTail, secondTail] middle middleNames final laterNames :=
    ⟨laterNames, both.trans _ far fun name member below =>
      member.elim id fun late => touchable name late below⟩
  rcases firstTrails with firstWithin | ⟨firstLast, firstLoose, firstTouchable⟩
  · have firstWithinTwo := toTwo.within firstWithin
    rcases secondTrails with secondWithin | ⟨secondLast, secondLoose, secondTouchable⟩
    · have covers : two.Covers twoNames [⟨.var firstTail, .var secondTail⟩] := by
        intro equation member name inside
        obtain rfl := List.mem_singleton.mp member
        exact inside.elim (firstWithinTwo name) (secondWithin name)
      refine (solves two twoNames _ toTwo.confined count covers).imp ?_
      rintro final ⟨laterNames, far, -⟩
      exact finish final laterNames [] far nofun
    · refine .swap toTwo.confined.normal active
        ((solves.settles toTwo.confined count secondLoose firstWithinTwo).imp ?_)
      rintro final ⟨laterNames, far, -⟩
      refine finish final laterNames _ far fun name member below => ?_
      obtain rfl := List.mem_singleton.mp member
      exact List.mem_cons_of_mem _ (secondTouchable (below.mono toOne.supply))
  · have firstKept : firstLast ≠ secondTail := by
      rintro rfl
      exact tails (List.mem_singleton.mp (firstTouchable secondKnown))
    have firstLooseTwo := toTwo.loose firstLoose fun member =>
      firstKept (List.mem_singleton.mp member)
    have firstListed (below : firstLast.IsBelow middle.supply.next) :
        firstLast ∈ [firstTail, secondTail] :=
      List.mem_cons.mpr (Or.inl (List.mem_singleton.mp (firstTouchable below)))
    rcases secondTrails with secondWithin | ⟨secondLast, secondLoose, secondTouchable⟩
    · refine (solves.settles toTwo.confined count firstLooseTwo secondWithin).imp ?_
      rintro final ⟨laterNames, far, -⟩
      refine finish final laterNames _ far fun name member below => ?_
      obtain rfl := List.mem_singleton.mp member
      exact firstListed below
    · have different : firstLast ≠ secondLast := by
        rintro rfl
        exact firstKept (List.mem_singleton.mp (secondTouchable firstLoose.spare.known))
      refine (toTwo.confined.concludes_loose_pair count solves firstLooseTwo secondLoose
        different).imp ?_
      rintro final ⟨laterNames, far⟩
      refine finish final laterNames _ far fun name member below => ?_
      rcases List.mem_cons.mp member with rfl | isSecond
      · exact firstListed below
      · obtain rfl := List.mem_singleton.mp isSecond
        exact List.mem_cons_of_mem _ (secondTouchable (below.mono toOne.supply))

/-- What touches the two names made alone touches nothing that was known before. -/
theorem Prepares.advances_of_tails {final : Engine} {laterNames : Finset Name}
    (prepares : Prepares engine names middle middleNames)
    (far : Advances [engine.supply.name 0, engine.supply.name 1] middle middleNames final
      laterNames) : Advances [] engine names final laterNames := by
  refine prepares.advances.trans [] far fun name member below => ?_
  have notFirst : name ≠ engine.supply.name 0 := FreshSupply.ne_name below 0
  have notSecond : name ≠ engine.supply.name 1 := FreshSupply.ne_name below 1
  simp [notFirst, notSecond] at member

/-- Two records are extended although some names are gone: the tails settle one after
another, and then they are equated. -/
theorem Prepares.concludes_extension_of_fewer
    (prepares : Prepares engine names middle middleNames)
    (solves : SolvesWithin top middleNames.card) (firstInner : first.InnerWithin names)
    (secondInner : second.InnerWithin names) (firstMember : firstRow ∈ names)
    (secondMember : secondRow ∈ names) :
    Concludes top middle
      (first.extensionEquations second (.var firstRow) (.var secondRow) engine.supply.tail) fun final =>
        ∃ laterNames, Advances [] engine names final laterNames ∧
          laterNames.card ≤ middleNames.card := by
  have near := prepares.advances
  have tails : engine.supply.name 1 ≠ engine.supply.name 0 :=
    FreshSupply.name_ne_name Nat.one_ne_zero
  refine .andThen near.confined.active (solves.settles near.confined (Nat.le_refl _)
    (prepares.excerpt firstInner second (Nat.zero_lt_succ 1)) (near.carried _ secondMember))
    fun one oneActive outcome => ?_
  obtain ⟨oneNames, toOne, firstTrails⟩ := outcome
  refine .andThen oneActive (solves.settles toOne.confined toOne.fewer
    (toOne.loose (prepares.excerpt secondInner first (Nat.lt_succ_self 1))
      fun member => tails (List.mem_singleton.mp member))
    (toOne.within (near.carried _ firstMember))) fun two twoActive outcome => ?_
  obtain ⟨twoNames, toTwo, secondTrails⟩ := outcome
  refine (concludes_settled_tails solves (toTwo.fewer.trans toOne.fewer) toOne toTwo
    twoActive firstTrails secondTrails (prepares.spare (Nat.lt_succ_self 1)).known tails).imp ?_
  rintro final ⟨laterNames, far⟩
  exact ⟨laterNames, prepares.advances_of_tails far, far.fewer⟩

/-- After two records were extended, fewer names remain. -/
theorem Prepares.concludes_extension_of_members
    (prepares : Prepares engine names middle middleNames)
    (solves : ∀ number < names.card, SolvesWithin top number)
    (firstInner : first.InnerWithin names) (secondInner : second.InnerWithin names)
    (firstMember : firstRow ∈ names) (secondMember : secondRow ∈ names)
    (rows : firstRow ≠ secondRow)
    (unchanged : middleNames.card = names.card → middleNames = names) :
    Concludes top middle
      (first.extensionEquations second (.var firstRow) (.var secondRow) engine.supply.tail) fun final =>
        ∃ laterNames, Advances [] engine names final laterNames ∧
          laterNames.card < names.card := by
  have near := prepares.advances
  rcases Nat.lt_or_eq_of_le near.fewer with less | same
  · refine (prepares.concludes_extension_of_fewer (solves _ less) firstInner secondInner
      firstMember secondMember).imp ?_
    rintro final ⟨laterNames, advances, fewer⟩
    exact ⟨laterNames, advances, Nat.lt_of_le_of_lt fewer less⟩
  · obtain rfl := unchanged same
    refine (near.confined.concludes_extension_of_names
      (prepares.excerpt firstInner second (Nat.zero_lt_succ 1))
      (prepares.excerpt secondInner first (Nat.lt_succ_self 1)) firstMember secondMember rows
      (FreshSupply.name_ne_name Nat.zero_ne_one)).imp ?_
    rintro final ⟨laterNames, far, less⟩
    exact ⟨laterNames, prepares.advances_of_tails far, less⟩

end Extension

section Moves

variable {engine : Engine} {names : Finset Name} {equation : Equation} {rest : List Equation}

/-- A binding takes a name out of the names. -/
theorem Confined.advances_of_bound (confined : engine.Confined names)
    (covers : engine.Covers names (equation :: rest)) {store : Store}
    (move : engine.move top (engine.resolve equation) = .bound store) :
    ∃ laterNames, Advances [] engine names { engine with store } laterNames ∧
      laterNames.card < names.card ∧ Engine.Covers { engine with store } laterNames rest := by
  obtain ⟨name, term, assigns, -, resolved, success⟩ := bound_of_move confined.normal move
  obtain ⟨member, restCovered⟩ := covers_bind confined.normal assigns success covers
  have within : term.Within names := fun other inside =>
    covers equation List.mem_cons_self other (assigns.mentions.2 other inside)
  exact ⟨_, confined.advances_bind_within member resolved success within,
    Finset.card_erase_lt_of_mem member, restCovered⟩

/-- A decomposition is a reduction, or it extends the rows of two records, both of which are
names. -/
theorem Confined.reduces_or_extends (confined : engine.Confined names)
    (covers : engine.Covers names (equation :: rest)) {equations : List Equation}
    {supply : FreshSupply}
    (move : engine.move top (engine.resolve equation) = .decomposed equations supply) :
    ∃ lhs rhs, engine.resolve equation = ⟨.app lhs, .app rhs⟩ ∧
      engine.supply.next ≤ supply.next ∧ lhs.Reduces rhs (lhs.sharedEquations rhs) ∧
      (lhs.Reduces rhs equations ∨ ∃ (first second : Application Term) (firstRow secondRow : Name),
        first.InnerWithin names ∧ second.InnerWithin names ∧ firstRow ∈ names ∧
        secondRow ∈ names ∧ firstRow ≠ secondRow ∧ supply = engine.supply.after 2 ∧
        equations = lhs.sharedEquations rhs ++
          first.extensionEquations second (.var firstRow) (.var secondRow) engine.supply.tail) := by
  obtain ⟨lhs, rhs, aligned, shape, lhsFlat, rhsFlat, arities, way, rfl⟩ :=
    aligned_of_move confined.normal confined.standard move
  refine ⟨lhs, rhs, shape, way.next_le, Application.reduces_shared arities lhsFlat rhsFlat,
    (way.reduces_or_extended arities lhsFlat rhsFlat).imp_right ?_⟩
  rintro ⟨first, second, firstTerm, secondTerm, sides, firstOpen, secondOpen, distinct, extended,
    rfl⟩
  have mentioned (name : Name) (inside : (Equation.mk (.app lhs) (.app rhs)).Mentions name) :
      name ∈ names := covers equation List.mem_cons_self name (shape.symm ▸ inside)
  have ⟨lhsShape, rhsShape⟩ := Equation.mk.inj shape
  have lhsWithin : (Term.app lhs).Within names := fun name inside => mentioned name (Or.inl inside)
  have rhsWithin : (Term.app rhs).Within names := fun name inside => mentioned name (Or.inr inside)
  rcases sides with ⟨rfl, rfl⟩ | ⟨rfl, rfl⟩
  · obtain ⟨firstRow, rfl, firstMember⟩ :=
      confined.exists_row_name lhsShape lhsWithin firstOpen
    obtain ⟨secondRow, rfl, secondMember⟩ :=
      confined.exists_row_name rhsShape rhsWithin secondOpen
    exact ⟨first, second, firstRow, secondRow, lhsWithin.inner, rhsWithin.inner, firstMember,
      secondMember, fun same => distinct firstRow rfl (same ▸ rfl), rfl, extended⟩
  · obtain ⟨firstRow, rfl, firstMember⟩ :=
      confined.exists_row_name rhsShape rhsWithin firstOpen
    obtain ⟨secondRow, rfl, secondMember⟩ :=
      confined.exists_row_name lhsShape lhsWithin secondOpen
    exact ⟨first, second, firstRow, secondRow, rhsWithin.inner, lhsWithin.inner, firstMember,
      secondMember, fun same => distinct firstRow rfl (same ▸ rfl), rfl, extended⟩

end Moves

section Solving

variable {engine middle final : Engine} {names middleNames : Finset Name}

/-- Fewer names than before are no reason to compare. -/
theorem Solved.of_fewer (outcome : ∃ laterNames, Advances [] engine names final laterNames ∧
    laterNames.card < names.card) : Solved engine names final := by
  obtain ⟨laterNames, advances, less⟩ := outcome
  exact ⟨laterNames, advances, fun same => absurd same (Nat.ne_of_lt less)⟩

/-- What is solved after a step that lost a name is solved with the step. -/
theorem Solved.after_step (near : Advances [] engine names middle middleNames)
    (less : middleNames.card < names.card) (solved : Solved middle middleNames final) :
    Solved engine names final := by
  obtain ⟨laterNames, far, -⟩ := solved
  exact .of_fewer ⟨laterNames, near.trans [] far nofun, Nat.lt_of_le_of_lt far.fewer less⟩

/-- What is solved after indices were used up is solved with that. -/
theorem Solved.after_supply {supply : FreshSupply} (confined : engine.Confined names)
    (least : engine.supply.next ≤ supply.next)
    (solved : Solved { engine with supply } names final) : Solved engine names final := by
  obtain ⟨laterNames, advances, unchanged⟩ := solved
  exact ⟨laterNames, (confined.advances_supply supply least).trans [] advances nofun, unchanged⟩

/-- Once the shared equations of two records are solved, their extension and the remaining
equations are, and fewer names remain. -/
theorem Confined.concludes_extended {first second : Application Term} {firstRow secondRow : Name}
    {shared rest : List Equation} (confined : engine.Confined names)
    (solves : ∀ number < names.card, SolvesWithin top number)
    (sharedDone : Concludes top { engine with supply := engine.supply.after 2 } shared
      (Solved { engine with supply := engine.supply.after 2 } names))
    (firstInner : first.InnerWithin names) (secondInner : second.InnerWithin names)
    (firstMember : firstRow ∈ names) (secondMember : secondRow ∈ names)
    (rows : firstRow ≠ secondRow) (covers : engine.Covers names rest) :
    Concludes top { engine with supply := engine.supply.after 2 }
      (shared ++ first.extensionEquations second (.var firstRow) (.var secondRow) engine.supply.tail ++
        rest) (Solved engine names) := by
  rw [List.append_assoc]
  refine sharedDone.append confined.active fun middle middleActive solved => ?_
  obtain ⟨middleNames, near, unchanged⟩ := solved
  have prepares : Prepares engine names middle middleNames := ⟨confined, near⟩
  refine .append middleActive (prepares.concludes_extension_of_members solves firstInner
    secondInner firstMember secondMember rows fun same => (unchanged same).2)
    fun last lastActive outcome => ?_
  obtain ⟨lastNames, step, less⟩ := outcome
  refine (solves _ less last lastNames rest step.confined (Nat.le_refl _)
    (step.covers covers)).imp fun final solved => ?_
  exact solved.after_step step less

/-- Equations covered by any number of names are solved.

The induction is on the number of names and, for the same names, on the load. A binding or
an extension leaves fewer names, a reduction or a settled equation less load. -/
theorem solvesWithin (top : Equation) (number : Nat) : SolvesWithin top number := by
  induction number using Nat.strong_induction_on with
  | _ number fewerNames =>
    intro engine names pending confined count covers
    induction load : engine.load pending using Nat.strong_induction_on
      generalizing engine pending with
    | _ total lighter =>
      have fewer (less : Nat) (small : less < names.card) : SolvesWithin top less :=
        fewerNames less (Nat.lt_of_lt_of_le small count)
      cases pending with
      | nil => exact .nil ⟨names, confined.advances_self, fun _ => ⟨rfl, rfl⟩⟩
      | cons equation rest =>
        refine .cons (fun move => ?_) (fun store move => ?_) (fun equations supply move => ?_)
        · have less : engine.load rest < total := load ▸ engine.load_tail_lt equation rest
          exact lighter _ less engine rest confined covers.tail rfl
        · obtain ⟨laterNames, step, less, laterCovered⟩ :=
            confined.advances_of_bound covers move
          refine (fewer _ less { engine with store } laterNames rest step.confined
            (Nat.le_refl _) laterCovered).imp fun final solved => ?_
          exact solved.after_step step less
        · obtain ⟨lhs, rhs, shape, least, sharedReduces, reduces | extended⟩ :=
            confined.reduces_or_extends covers move
          · obtain ⟨less, partsCovered⟩ :=
              load_covers_of_reduces confined.normal shape reduces covers
            have made := (confined.advances_supply supply least).confined
            refine (lighter _ (load ▸ less) { engine with supply } _ made partsCovered rfl).imp
              fun final solved => ?_
            exact solved.after_supply confined least
          · obtain ⟨first, second, firstRow, secondRow, firstInner, secondInner, firstMember,
              secondMember, rows, rfl, rfl⟩ := extended
            have made := (confined.advances_supply _ least).confined
            obtain ⟨less, sharedCovered⟩ :=
              load_covers_of_reduces confined.normal shape sharedReduces covers
            have sharedLess : engine.load (lhs.sharedEquations rhs) < total := by
              rw [load_append] at less
              omega
            exact confined.concludes_extended fewer (lighter _ sharedLess { engine with supply := _ }
              _ made (covers_append_iff.mp sharedCovered).1 rfl) firstInner secondInner firstMember
              secondMember rows covers.tail

end Solving

/-- Every list of equations is worked off.

The induction is on the indices that the supply has still to pass before all it makes is
new. Up to the first move that uses up an index the equations are only reduced. -/
theorem exists_worksOff (top : Equation) (engine : Engine) (pending : List Equation)
    (normal : engine.store.Normal) (active : engine.failure = none)
    (standard : engine.extension = none ∨ engine.extension = some RowExtension.withNewRow) :
    ∃ visited final, WorksOff top engine pending visited final := by
  obtain ⟨bound, known⟩ := engine.exists_knownTo pending
  induction gap : bound - engine.supply.next using Nat.strong_induction_on
    generalizing bound engine pending with
  | _ gap smaller =>
    by_cases passed : bound ≤ engine.supply.next
    · obtain ⟨names, confined, covers⟩ := known.exists_confined passed normal active standard
      obtain ⟨visited, final, work, -⟩ :=
        solvesWithin top names.card engine names pending confined (Nat.le_refl _) covers
      exact ⟨visited, final, work⟩
    · refine WorksOff.exists_of_reduces (fun state equations => state.store.Normal ∧
        state.failure = none ∧ (state.extension = none ∨
          state.extension = some RowExtension.withNewRow) ∧
        state.supply.next = engine.supply.next ∧ state.KnownTo equations bound)
        (fun state equations admitted => admitted.1) ?_ ?_ ?_ engine pending
        ⟨normal, active, standard, rfl, known⟩
      · rintro state equation rest ⟨normal, active, standard, supply, known⟩ -
        exact ⟨normal, active, standard, supply, known.tail⟩
      · rintro state equation rest store ⟨normal, active, standard, supply, known⟩ move
        obtain ⟨name, term, -, -, -, success⟩ := bound_of_move normal move
        exact ⟨normal.bind success, active, standard, supply, known.of_bound normal move⟩
      · rintro state equation rest lhs rhs equations later
          ⟨normal, active, standard, supply, known⟩ shape move
        obtain ⟨laterKnown, least, reduces⟩ := known.of_decomposed normal standard move
        rcases Nat.lt_or_eq_of_le least with drawn | unchanged
        · refine Or.inl (smaller (max bound later.next - later.next) (by omega)
            { state with supply := later } _ normal active standard _ laterKnown rfl)
        · have kept : max bound later.next = bound := by omega
          exact Or.inr ⟨reduces unchanged.symm lhs rhs shape, normal, active, standard,
            unchanged.symm.trans supply, kept ▸ laterKnown⟩

/-- Without a row extension, or with the one that makes new row variables, the run of `unify`
on a reachable engine leaves no goals after finitely many moves, and the call answers with
what the run has come to. A failure drops the goals that are left. -/
theorem unify_ends (engine : Engine) (equation : Equation) (reachable : Reachable engine)
    (standard : engine.extension = none ∨ engine.extension = some RowExtension.withNewRow) :
    ∃ budget run, (Run.start engine equation).finish equation budget = some run ∧
      run.pending = [] ∧ engine.UnifiesTo equation run.report := by
  have answered : ∃ report, engine.UnifiesTo equation report := by
    cases failure : engine.failure with
    | some _ =>
      exact ⟨_, unifiesTo_of_unify (unify_of_failed engine 0 equation (failure ▸ nofun))⟩
    | none =>
      obtain ⟨visited, final, work⟩ :=
        exists_worksOff equation engine [equation] reachable.normal failure standard
      obtain ⟨report, answered, -⟩ := unifiesTo_of_worksOff failure work
      exact ⟨report, answered⟩
  obtain ⟨report, enough, answers⟩ := answered
  have answer := answers enough (Nat.le_refl enough)
  obtain ⟨run, finished, rfl⟩ := Option.map_eq_some_iff.mp answer
  exact ⟨enough, run, finished, Run.pending_of_finish finished, enough, answers⟩

/-- `Box(label: s, width: w | r)`. -/
def crossedWideBox : Term :=
  .app ⟨.symbol "Box", [],
    .ofList [(.symbol "label", .var (.symbol "s")), (.symbol "width", .var (.symbol "w"))],
    some (.var (.symbol "r"))⟩

/-- `Box(depth: d, label: r | s)`. -/
def crossedDeepBox : Term :=
  .app ⟨.symbol "Box", [],
    .ofList [(.symbol "depth", .var (.symbol "d")), (.symbol "label", .var (.symbol "r"))],
    some (.var (.symbol "s"))⟩

/-- Solving the crossed boxes ends, although the common label makes their rows one variable
before these are extended. -/
theorem unify_ends_crossed_boxes : ∃ budget run,
    (Run.start boxEngine ⟨crossedWideBox, crossedDeepBox⟩).finish
      ⟨crossedWideBox, crossedDeepBox⟩ budget = some run ∧ run.pending = [] ∧
      boxEngine.UnifiesTo ⟨crossedWideBox, crossedDeepBox⟩ run.report :=
  unify_ends boxEngine _ boxEngine_reachable (Or.inr rfl)

end RowUnification.Engine
