import Mathlib.Data.List.Forall2
import RowUnification.Proofs.Alignment
import RowUnification.Proofs.Calls

/-!
# Exchanging the sides of an equation

Two runs from the same engine stay side by side if each equation of the one is an
equation of the other, as it is or with its sides exchanged. Exchanging the sides
of a variable equation binds the same variable, by the order of names. Exchanging
two records exchanges their common fields and rows, but not the equations that
extend a row: those come in the order of the row variables on both sides, so the
same terms are made from the same indices. Rows are variables then, because
resolved terms are flat, and different ones, because a row cannot take in two
different surpluses.

Hence the runs bind the same variables in the same order and end together. If
they fail, they fail with the same evidence, as it is or with its sides exchanged.
The row extension is any function.
-/

namespace RowUnification

/-- The other equation is this one, or this one with its sides exchanged. -/
def Equation.Mirrors (equation other : Equation) : Prop :=
  other = equation ∨ other = equation.swap

/-- The mismatch with its sides exchanged. -/
def Mismatch.swap : Mismatch → Mismatch
  | functorClash lhsFunctor rhsFunctor lhs rhs => functorClash rhsFunctor lhsFunctor rhs lhs
  | arityClash lhsArity rhsArity lhs rhs => arityClash rhsArity lhsArity rhs lhs
  | unmatchedLabels lhsOnly rhsOnly => unmatchedLabels rhsOnly lhsOnly

/-- Two failures of the same kind under two top equations, with the same evidence or with
its sides exchanged. -/
inductive Failure.Mirrors (top other : Equation) : Failure → Failure → Prop
  /-- The same variable would stand for the same term. -/
  | cyclic (cycle : Cycle) :
      Mirrors top other (.cyclic cycle (some top)) (.cyclic cycle (some other))
  /-- The same terms do not match. -/
  | same (mismatch : Mismatch) :
      Mirrors top other (.mismatched mismatch top) (.mismatched mismatch other)
  /-- The terms that do not match are exchanged. -/
  | exchanged (mismatch : Mismatch) :
      Mirrors top other (.mismatched mismatch top) (.mismatched mismatch.swap other)

/-- Two moves that bind alike, come down to mirrored equations, or fail alike. -/
inductive Move.Mirrors (top other : Equation) : Move → Move → Prop
  /-- Neither does anything. -/
  | settled : Mirrors top other .settled .settled
  /-- Both make the same binding. -/
  | bound (store : Store) : Mirrors top other (.bound store) (.bound store)
  /-- Both come down to mirrored equations and use the same indices. -/
  | decomposed (equations others : List Equation) (supply : FreshSupply)
      (mirrored : List.Forall₂ Equation.Mirrors equations others) :
      Mirrors top other (.decomposed equations supply) (.decomposed others supply)
  /-- Both fail alike. -/
  | refused (failure mirrored : Failure) (store : Store) (supply : FreshSupply)
      (alike : failure.Mirrors top other mirrored) :
      Mirrors top other (.refused failure store supply) (.refused mirrored store supply)

/-- Every list of equations mirrors itself. -/
theorem forall₂_mirrors_refl (equations : List Equation) :
    List.Forall₂ Equation.Mirrors equations equations :=
  List.forall₂_same.mpr fun _ _ => Or.inl rfl

/-- Exchanging the sides throughout mirrors a list. -/
theorem forall₂_mirrors_swap (equations : List Equation) :
    List.Forall₂ Equation.Mirrors equations (equations.map Equation.swap) := by
  rw [List.forall₂_map_right_iff]
  exact List.forall₂_same.mpr fun _ _ => Or.inr rfl

/-- Subterms paired the other way round are the same pairs exchanged. -/
theorem zipWith_mk_swap (left right : List Term) :
    List.zipWith Equation.mk right left =
      (List.zipWith Equation.mk left right).map Equation.swap := by
  rw [List.zipWith_comm, List.map_zipWith]
  rfl

/-- What is left over on the two sides is exchanged with the records. -/
theorem Leftover.between_swap (lhs rhs : Application Term) :
    Leftover.between rhs lhs =
      ⟨(Leftover.between lhs rhs).rhsOnly, (Leftover.between lhs rhs).lhsOnly⟩ := rfl

/-- Whether the rows can take in the fields does not depend on the order of the sides. -/
theorem Leftover.isAbsorbed_swap (lhsOnly rhsOnly : NameMap Term) (lhsRow rhsRow : Option Term) :
    (Leftover.mk rhsOnly lhsOnly).isAbsorbed rhsRow lhsRow =
      (Leftover.mk lhsOnly rhsOnly).isAbsorbed lhsRow rhsRow := by
  cases lhsRow with
  | none =>
    cases rhsRow with
    | none => exact Bool.and_comm _ _
    | some row => cases row <;> rfl
  | some left =>
    cases rhsRow with
    | none => cases left <;> rfl
    | some right =>
      cases left <;> cases right <;> simp [isAbsorbed, eq_comm]

/-- Two rows that are different variables are extended in the same order on both sides. -/
theorem Filling.inOrder_swap (first second : Filling) (firstName secondName : Name)
    (firstRow : first.row = .var firstName) (secondRow : second.row = .var secondName)
    (different : firstName ≠ secondName) : inOrder second first = inOrder first second := by
  simp only [inOrder, precedes, firstRow, secondRow, Term.variableName?, decide_eq_true_eq]
  by_cases before : firstName < secondName
  · have notAfter : ¬ secondName < firstName := fun after =>
      Name.lt_irrefl _ (Name.lt_trans before after)
    rw [if_pos before, if_neg notAfter]
  · have after : secondName < firstName := by
      apply Decidable.byContradiction
      intro notAfter
      exact different (Name.eq_of_not_lt before notAfter)
    rw [if_neg before, if_pos after]

/-- The rows to be filled and their order do not depend on the order of the sides, if the
rows are variables and able to take in the fields. -/
theorem Filling.between_swap (lhs rhs : Application Term)
    (lhsFlat : lhs.row = none ∨ ∃ name, lhs.row = some (.var name))
    (rhsFlat : rhs.row = none ∨ ∃ name, rhs.row = some (.var name))
    (absorbed : (Leftover.between lhs rhs).isAbsorbed lhs.row rhs.row = true) :
    Filling.between rhs lhs (Leftover.between rhs lhs) =
      Filling.between lhs rhs (Leftover.between lhs rhs) := by
  rcases lhsFlat with lhsRow | ⟨left, lhsRow⟩ <;> rcases rhsFlat with rhsRow | ⟨right, rhsRow⟩ <;>
    simp only [Filling.between, lhsRow, rhsRow, Leftover.between_swap lhs rhs]
  rw [lhsRow, rhsRow] at absorbed
  have different : left ≠ right := of_decide_eq_true absorbed
  exact Filling.inOrder_swap _ _ right left rfl rfl (Ne.symm different)

/-- Aligning two records whose rows are variables with their sides exchanged gives mirrored
equations and the same supply, or the leftover fields exchanged. -/
theorem align_swap (extension : Option RowExtension) (lhs rhs : Application Term)
    (supply : FreshSupply) (lhsFlat : lhs.row = none ∨ ∃ name, lhs.row = some (.var name))
    (rhsFlat : rhs.row = none ∨ ∃ name, rhs.row = some (.var name)) :
    (∃ equations others later, align extension lhs rhs supply = (.ok equations, later) ∧
      align extension rhs lhs supply = (.ok others, later) ∧
      List.Forall₂ Equation.Mirrors equations others) ∨
    (∃ lhsOnly rhsOnly, align extension lhs rhs supply = (.error ⟨lhsOnly, rhsOnly⟩, supply) ∧
      align extension rhs lhs supply = (.error ⟨rhsOnly, lhsOnly⟩, supply)) := by
  have common : List.Forall₂ Equation.Mirrors (commonFields lhs rhs) (commonFields rhs lhs) := by
    rw [commonFields_swap lhs rhs]
    exact forall₂_mirrors_swap _
  have emptySwap : (Leftover.between rhs lhs).isEmpty = (Leftover.between lhs rhs).isEmpty :=
    Bool.and_comm _ _
  have absorbedSwap : (Leftover.between rhs lhs).isAbsorbed rhs.row lhs.row =
      (Leftover.between lhs rhs).isAbsorbed lhs.row rhs.row := Leftover.isAbsorbed_swap _ _ _ _
  by_cases level : (Leftover.between lhs rhs).isEmpty = true
  · refine Or.inl ⟨_, _, supply, align_of_level extension level,
      align_of_level extension (emptySwap.trans level), List.rel_append common ?_⟩
    cases lhs.row <;> cases rhs.row
    · exact .nil
    · exact .nil
    · exact .nil
    · exact .cons (Or.inr rfl) .nil
  · have uneven : ¬ (Leftover.between rhs lhs).isEmpty = true := emptySwap ▸ level
    by_cases absorbed : (Leftover.between lhs rhs).isAbsorbed lhs.row rhs.row = true
    · cases extension with
      | none =>
        exact Or.inr ⟨_, _, align_of_stuck level (Or.inl rfl), align_of_stuck uneven (Or.inl rfl)⟩
      | some extension =>
        have fillings := Filling.between_swap lhs rhs lhsFlat rhsFlat absorbed
        refine Or.inl ⟨_, _, _, align_of_absorbed extension level absorbed _ rfl,
          align_of_absorbed extension uneven (absorbedSwap.trans absorbed) _ (by rw [fillings]), ?_⟩
        rw [List.append_assoc, List.append_assoc]
        exact List.rel_append common (forall₂_mirrors_refl _)
    · have unabsorbed : ¬ (Leftover.between rhs lhs).isAbsorbed rhs.row lhs.row = true :=
        absorbedSwap ▸ absorbed
      exact Or.inr ⟨_, _, align_of_stuck level (Or.inr absorbed),
        align_of_stuck uneven (Or.inr unabsorbed)⟩

namespace Engine

/-- One binding serves both orientations. -/
theorem bindingMove_mirrors (engine : Engine) (top other : Equation) (name : Name) (term : Term) :
    Move.Mirrors top other (engine.bindingMove top name term)
      (engine.bindingMove other name term) := by
  simp only [bindingMove, Store.request_eq]
  cases engine.store.bind name term with
  | ok store => exact .bound store
  | error cycle => exact .refused _ _ _ _ (.cyclic cycle)

/-- Two applications come down to the same equations whatever the top equation. -/
theorem applicationMove_mirrors_self (engine : Engine) (top other : Equation)
    (lhs rhs : Application Term) :
    Move.Mirrors top other (engine.applicationMove top lhs rhs)
      (engine.applicationMove other lhs rhs) := by
  simp only [applicationMove]
  split
  · exact .refused _ _ _ _ (.same _)
  · split
    · exact .refused _ _ _ _ (.same _)
    · split
      · exact .decomposed _ _ _ (forall₂_mirrors_refl _)
      · exact .refused _ _ _ _ (.same _)

/-- Two applications whose rows are variables come down to mirrored equations, or they do
not match in either orientation. -/
theorem applicationMove_mirrors_swap (engine : Engine) (top other : Equation)
    (lhs rhs : Application Term) (lhsFlat : lhs.row = none ∨ ∃ name, lhs.row = some (.var name))
    (rhsFlat : rhs.row = none ∨ ∃ name, rhs.row = some (.var name)) :
    Move.Mirrors top other (engine.applicationMove top lhs rhs)
      (engine.applicationMove other rhs lhs) := by
  by_cases functors : lhs.functor = rhs.functor
  · by_cases arities : lhs.subterms.length = rhs.subterms.length
    · simp only [applicationMove, functors, arities, ne_eq, not_true_eq_false, if_false]
      rcases align_swap engine.extension lhs rhs engine.supply lhsFlat rhsFlat with
        ⟨equations, others, later, forward, backward, mirrored⟩ |
          ⟨lhsOnly, rhsOnly, forward, backward⟩
      · rw [forward, backward]
        refine .decomposed _ _ later (List.rel_append ?_ mirrored)
        rw [zipWith_mk_swap lhs.subterms rhs.subterms]
        exact forall₂_mirrors_swap _
      · rw [forward, backward]
        exact .refused _ _ _ _ (.exchanged (.unmatchedLabels lhsOnly rhsOnly))
    · simp only [applicationMove, functors, ne_eq, not_true_eq_false, if_false, if_pos arities,
        if_pos (Ne.symm arities)]
      exact .refused _ _ _ _ (.exchanged (.arityClash _ _ _ _))
  · simp only [applicationMove, ne_eq, if_pos functors, if_pos (Ne.symm functors)]
    exact .refused _ _ _ _ (.exchanged (.functorClash _ _ _ _))

/-- Mirrored equations with flat sides have mirrored moves.

Of two variables the greater one is bound on both sides. Every other case binds the one
variable there is or compares two applications. -/
theorem move_mirrors (engine : Engine) (top other equation mirrored : Equation)
    (lhsFlat : equation.lhs.Flat) (rhsFlat : equation.rhs.Flat)
    (mirrors : equation.Mirrors mirrored) :
    Move.Mirrors top other (engine.move top equation) (engine.move other mirrored) := by
  obtain ⟨left, right⟩ := equation
  rcases mirrors with rfl | rfl
  · match left, right with
    | .var lhs, .var rhs =>
      simp only [move]
      split
      · exact .settled
      · split <;> exact bindingMove_mirrors engine top other _ _
    | .var lhs, .app rhs => exact bindingMove_mirrors engine top other lhs (.app rhs)
    | .app lhs, .var rhs => exact bindingMove_mirrors engine top other rhs (.app lhs)
    | .app lhs, .app rhs => exact applicationMove_mirrors_self engine top other lhs rhs
  · match left, right with
    | .var lhs, .var rhs =>
      simp only [Equation.swap, move]
      by_cases same : lhs = rhs
      · rw [if_pos same, if_pos same.symm]
        exact .settled
      · rw [if_neg same, if_neg (Ne.symm same)]
        by_cases before : rhs < lhs
        · have notAfter : ¬ lhs < rhs := fun after => Name.lt_irrefl _ (Name.lt_trans before after)
          rw [if_pos before, if_neg notAfter]
          exact bindingMove_mirrors engine top other lhs (.var rhs)
        · have after : lhs < rhs :=
            Decidable.byContradiction fun notAfter => same (Name.eq_of_not_lt notAfter before)
          rw [if_neg before, if_pos after]
          exact bindingMove_mirrors engine top other rhs (.var lhs)
    | .var lhs, .app rhs => exact bindingMove_mirrors engine top other lhs (.app rhs)
    | .app lhs, .var rhs => exact bindingMove_mirrors engine top other rhs (.app lhs)
    | .app lhs, .app rhs =>
      exact applicationMove_mirrors_swap engine top other lhs rhs lhsFlat.row rhsFlat.row

/-- Resolved through a store in normal form, mirrored equations have mirrored moves. -/
theorem move_resolve_mirrors {engine : Engine} (top other : Equation)
    {equation mirrored : Equation} (normal : engine.store.Normal)
    (mirrors : equation.Mirrors mirrored) :
    Move.Mirrors top other (engine.move top (engine.resolve equation))
      (engine.move other (engine.resolve mirrored)) := by
  refine engine.move_mirrors top other _ _ (normal.flat_apply equation.lhs)
    (normal.flat_apply equation.rhs) ?_
  rcases mirrors with rfl | rfl
  · exact Or.inl rfl
  · exact Or.inr rfl

/-- Two engines that agree but for failures, which mirror each other. -/
inductive Mirrors (top other : Equation) : Engine → Engine → Prop
  /-- Neither has failed. -/
  | active (engine : Engine) (active : engine.failure = none) : Mirrors top other engine engine
  /-- Both have failed alike. -/
  | failed (engine : Engine) (failure mirrored : Failure)
      (alike : failure.Mirrors top other mirrored) :
      Mirrors top other { engine with failure := some failure }
        { engine with failure := some mirrored }

/-- Engines that mirror each other have the same store, supply and status, and failures that
mirror each other. -/
theorem Mirrors.agree {top other : Equation} {first second : Engine}
    (mirrors : Mirrors top other first second) :
    first.store = second.store ∧ first.supply = second.supply ∧
      first.isActive = second.isActive ∧
      ∀ failure mirrored, first.failure = some failure → second.failure = some mirrored →
        failure.Mirrors top other mirrored := by
  cases mirrors with
  | active engine active =>
    refine ⟨rfl, rfl, rfl, fun failure _ failed => ?_⟩
    exact nomatch active.symm.trans failed
  | failed engine failure mirrored alike =>
    refine ⟨rfl, rfl, rfl, fun _ _ failed mirroredFailed => ?_⟩
    cases failed
    cases mirroredFailed
    exact alike

/-- Mirrored equations are worked off side by side.

The induction goes along the first run. Before each move the two engines are the same,
and the equations still to be solved mirror each other in order. -/
theorem WorksOff.mirrored {top : Equation} {engine final : Engine}
    {pending visited others : List Equation} (other : Equation)
    (work : WorksOff top engine pending visited final) (normal : engine.store.Normal)
    (active : engine.failure = none) (mirrored : List.Forall₂ Equation.Mirrors pending others) :
    ∃ treated last, WorksOff other engine others treated last ∧
      Engine.Mirrors top other final last := by
  induction work generalizing others with
  | done engine =>
    cases mirrored
    exact ⟨[], engine, .done engine, .active engine active⟩
  | settled engine final equation pending visited move _ inductionHypothesis =>
    cases mirrored with
    | @cons _ partner _ partners mirrors rest =>
      obtain ⟨treated, last, work, alike⟩ := inductionHypothesis normal active rest
      have moves := move_resolve_mirrors top other normal mirrors
      rw [move] at moves
      generalize taken : engine.move other (engine.resolve partner) = partnerMove at moves
      cases moves with
      | settled => exact ⟨_, last, .settled engine last partner _ _ taken work, alike⟩
  | bound engine final equation pending visited store move _ inductionHypothesis =>
    cases mirrored with
    | @cons _ partner _ partners mirrors rest =>
      obtain ⟨name, term, -, -, -, success⟩ := bound_of_move normal move
      obtain ⟨treated, last, work, alike⟩ :=
        inductionHypothesis (normal.bind success) active rest
      have moves := move_resolve_mirrors top other normal mirrors
      rw [move] at moves
      generalize taken : engine.move other (engine.resolve partner) = partnerMove at moves
      cases moves with
      | bound => exact ⟨_, last, .bound engine last partner _ _ store taken work, alike⟩
  | decomposed engine final equation pending visited equations supply move _
      inductionHypothesis =>
    cases mirrored with
    | @cons _ partner _ partners mirrors rest =>
      have moves := move_resolve_mirrors top other normal mirrors
      rw [move] at moves
      generalize taken : engine.move other (engine.resolve partner) = partnerMove at moves
      cases moves with
      | decomposed _ others _ parts =>
        obtain ⟨treated, last, work, alike⟩ :=
          inductionHypothesis normal active (List.rel_append parts rest)
        exact ⟨_, last, .decomposed engine last partner _ _ others supply taken work, alike⟩
  | refused engine equation pending failure move =>
    cases mirrored with
    | @cons _ partner _ partners mirrors rest =>
      have moves := move_resolve_mirrors top other normal mirrors
      rw [move] at moves
      generalize taken : engine.move other (engine.resolve partner) = partnerMove at moves
      cases moves with
      | refused _ mirrored _ _ alike =>
        exact ⟨_, _, .refused engine partner partners mirrored taken,
          .failed engine failure mirrored alike⟩

/-- A call that answers for an equation answers for the exchanged equation, and the two
engines afterwards mirror each other. -/
theorem UnifiesTo.mirrored {engine : Engine} {lhs rhs : Term} {report : Report}
    (answered : engine.UnifiesTo ⟨lhs, rhs⟩ report) (normal : engine.store.Normal)
    (active : engine.failure = none) :
    ∃ other, engine.UnifiesTo ⟨rhs, lhs⟩ other ∧
      Engine.Mirrors ⟨lhs, rhs⟩ ⟨rhs, lhs⟩ report.engine other.engine := by
  obtain ⟨visited, work⟩ := answered.worksOff active
  have exchanged : List.Forall₂ Equation.Mirrors [⟨lhs, rhs⟩] [⟨rhs, lhs⟩] :=
    .cons (Or.inr rfl) .nil
  obtain ⟨treated, last, mirroredWork, alike⟩ :=
    work.mirrored ⟨rhs, lhs⟩ normal active exchanged
  obtain ⟨other, otherAnswered, rfl⟩ := unifiesTo_of_worksOff active mirroredWork
  exact ⟨other, otherAnswered, alike⟩

/-- Solving an equation and solving it with its sides exchanged, from the same reachable
engine and with any row extension, both end or both do not. They leave the same store, the
same supply and the same status. If the engine was active and both calls fail, they fail
with the same kind of failure under exchanged top equations, on the same evidence or on
exchanged evidence. A failed engine stays as it is in both calls. -/
theorem unify_exchanged (engine : Engine) (lhs rhs : Term) (reachable : Reachable engine) :
    ((∃ report, engine.UnifiesTo ⟨lhs, rhs⟩ report) ↔
      ∃ report, engine.UnifiesTo ⟨rhs, lhs⟩ report) ∧
    ∀ forward backward, engine.UnifiesTo ⟨lhs, rhs⟩ forward →
      engine.UnifiesTo ⟨rhs, lhs⟩ backward →
      forward.engine.store = backward.engine.store ∧
      forward.engine.supply = backward.engine.supply ∧
      forward.engine.isActive = backward.engine.isActive ∧
      (engine.isActive = true → ∀ failure mirrored, forward.engine.failure = some failure →
        backward.engine.failure = some mirrored →
        failure.Mirrors ⟨lhs, rhs⟩ ⟨rhs, lhs⟩ mirrored) ∧
      (engine.isActive = false → forward.engine = engine ∧ backward.engine = engine) := by
  have normal := reachable.normal
  cases failure : engine.failure with
  | none =>
    have active : engine.isActive = true := engine.isActive_iff.mpr failure
    have answers (left right : Term) (answered : ∃ report, engine.UnifiesTo ⟨left, right⟩ report) :
        ∃ report, engine.UnifiesTo ⟨right, left⟩ report := by
      obtain ⟨report, answered⟩ := answered
      obtain ⟨other, otherAnswered, -⟩ := answered.mirrored normal failure
      exact ⟨other, otherAnswered⟩
    refine ⟨⟨answers lhs rhs, answers rhs lhs⟩, ?_⟩
    intro forward backward forwardAnswered backwardAnswered
    obtain ⟨other, otherAnswered, alike⟩ := forwardAnswered.mirrored normal failure
    obtain rfl := otherAnswered.unique backwardAnswered
    obtain ⟨store, supply, status, failures⟩ := alike.agree
    refine ⟨store, supply, status, fun _ => failures, fun inactive => ?_⟩
    exact nomatch active.symm.trans inactive
  | some failure =>
    have failed : engine.failure ≠ none := failure ▸ nofun
    have ends (equation : Equation) : ∃ report, engine.UnifiesTo equation report :=
      ⟨⟨engine, []⟩, 0, fun budget _ => unify_of_failed engine budget equation failed⟩
    refine ⟨iff_of_true (ends _) (ends _), ?_⟩
    intro forward backward forwardAnswered backwardAnswered
    rw [forwardAnswered.of_failed failed, backwardAnswered.of_failed failed]
    refine ⟨rfl, rfl, rfl, fun active => ?_, fun _ => ⟨rfl, rfl⟩⟩
    exact absurd (engine.isActive_iff.mp active) failed

/-- The two boxes are solved in both orientations, with the same bindings and tails. -/
theorem unify_exchanged_boxes : Reachable boxEngine ∧
    ∃ forward backward, boxEngine.unify 20 ⟨wideBox, deepBox⟩ = some forward ∧
      boxEngine.unify 20 ⟨deepBox, wideBox⟩ = some backward ∧
      forward.engine.store.size = 4 ∧ forward.engine.store = backward.engine.store ∧
      forward.engine.supply = backward.engine.supply := by
  obtain ⟨forward, forwardAnswered⟩ :=
    Option.isSome_iff_exists.mp (by decide +kernel :
      (boxEngine.unify 20 ⟨wideBox, deepBox⟩).isSome = true)
  obtain ⟨backward, backwardAnswered⟩ :=
    Option.isSome_iff_exists.mp (by decide +kernel :
      (boxEngine.unify 20 ⟨deepBox, wideBox⟩).isSome = true)
  have size : (boxEngine.unify 20 ⟨wideBox, deepBox⟩).all
      (fun report => report.engine.store.size = 4) = true := by decide +kernel
  rw [forwardAnswered] at size
  obtain ⟨-, agree⟩ := unify_exchanged boxEngine wideBox deepBox boxEngine_reachable
  obtain ⟨store, supply, -⟩ := agree forward backward (unifiesTo_of_unify forwardAnswered)
    (unifiesTo_of_unify backwardAnswered)
  exact ⟨boxEngine_reachable, forward, backward, forwardAnswered, backwardAnswered,
    of_decide_eq_true size, store, supply⟩

/-- The engine after it failed to make two constants equal. -/
def clashedEngine : Engine :=
  { boxEngine with
    failure := some (.mismatched
      (.functorClash (.symbol "A") (.symbol "B") (.app (.ofSubterms (.symbol "A") []))
        (.app (.ofSubterms (.symbol "B") [])))
      ⟨.app (.ofSubterms (.symbol "A") []), .app (.ofSubterms (.symbol "B") [])⟩) }

/-- On an engine that has failed before, both calls keep the earlier failure, so its top
equation is not exchanged. -/
theorem failed_engine_keeps_top : Reachable clashedEngine ∧
    ∃ forward backward failure mirrored,
      clashedEngine.UnifiesTo ⟨wideBox, deepBox⟩ forward ∧
      clashedEngine.UnifiesTo ⟨deepBox, wideBox⟩ backward ∧
      forward.engine.failure = some failure ∧ backward.engine.failure = some mirrored ∧
      mirrored.top ≠ failure.top.map Equation.swap := by
  have clash : boxEngine.unify 1
      ⟨.app (.ofSubterms (.symbol "A") []), .app (.ofSubterms (.symbol "B") [])⟩ =
        some ⟨clashedEngine, _⟩ := rfl
  have failed : clashedEngine.failure ≠ none := nofun
  refine ⟨.unify boxEngine 1 _ _ boxEngine_reachable clash, _, _, _, _,
    ⟨0, fun budget _ => unify_of_failed clashedEngine budget _ failed⟩,
    ⟨0, fun budget _ => unify_of_failed clashedEngine budget _ failed⟩, rfl, rfl, ?_⟩
  decide +kernel

end Engine

end RowUnification
