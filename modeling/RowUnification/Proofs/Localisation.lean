import Mathlib.Data.List.Lex
import RowUnification.Proofs.RowFree

/-!
# Where a failure lies

A position in a term is the list of steps that lead to it from the root. In pre-order, an
application comes before its parts, its subterms come from left to right before its fields, and
its fields go by label; this is the lexicographic order of the lists.

On row-free terms, an engine treats the positions of an equation in pre-order, for each under
the store it has by then. What it has treated without failing holds in the last store, and
the equation that fails has different roots in it. So under the last store the failure lies at the
first position where the two sides of the top equation differ at the root, and its evidence is
what stands there.
-/

namespace RowUnification

namespace Term

/-- A step from an application to one of its parts, the row apart. -/
inductive Step where
  /-- To the subterm at a position. -/
  | subterm (position : Nat)
  /-- To the field under a label. -/
  | field (label : Name)
deriving DecidableEq

/-- Subterms come by position and before the fields, and fields by label. -/
inductive Step.Before : Step → Step → Prop
  /-- A subterm comes before those at greater positions. -/
  | subterms (first second : Nat) (less : first < second) :
      Before (.subterm first) (.subterm second)
  /-- Every subterm comes before every field. -/
  | subtermField (position : Nat) (label : Name) : Before (.subterm position) (.field label)
  /-- A field comes before those under greater labels. -/
  | fields (first second : Name) (less : first < second) : Before (.field first) (.field second)

/-- What stands at the root of a term. -/
inductive Root where
  /-- A variable. -/
  | var (name : Name)
  /-- A functor with the number of its subterms and the labels of its fields. -/
  | app (functor : Name) (arity : Nat) (labels : List Name)
deriving DecidableEq

/-- The root of a term. -/
def root : Term → Root
  | var name => .var name
  | app parts => .app parts.functor parts.subterms.length parts.fields.keys

end Term

/-- The part that a step leads to. -/
def Application.part? (parts : Application Term) : Term.Step → Option Term
  | .subterm position => parts.subterms[position]?
  | .field label => parts.fields.get? label

/-- Transformed parts are found by the same steps. -/
theorem Application.part?_map (transform : Term → Term) (parts : Application Term)
    (step : Term.Step) : (parts.map transform).part? step = (parts.part? step).map transform := by
  cases step with
  | subterm position => simp [part?, map]
  | field label => simp [part?, map]

namespace Term

/-- The subterm that a list of steps leads to. -/
def subtermAt? : Term → List Step → Option Term
  | term, [] => some term
  | var _, _ :: _ => none
  | app parts, step :: path => (parts.part? step).bind fun part => part.subtermAt? path

/-- The path leads to subterms with different roots in the two terms, and it is the first one in
pre-order: a path before it leads to the same root in both, or to a subterm in neither. -/
structure FirstDifference (left right : Term) (path : List Step) (lhs rhs : Term) : Prop where
  /-- Where the path leads in the first term. -/
  inLeft : left.subtermAt? path = some lhs
  /-- Where the path leads in the second term. -/
  inRight : right.subtermAt? path = some rhs
  /-- The roots are different. -/
  different : lhs.root ≠ rhs.root
  /-- The roots are the same before. -/
  first : ∀ earlier, List.Lex Step.Before earlier path →
    (left.subtermAt? earlier).map root = (right.subtermAt? earlier).map root

/-- Terms with different roots differ at the root first. -/
theorem firstDifference_root {lhs rhs : Term} (different : lhs.root ≠ rhs.root) :
    FirstDifference lhs rhs [] lhs rhs where
  inLeft := rfl
  inRight := rfl
  different := different
  first _ before := nomatch before

/-- Applications with the same root that agree on the parts before some step differ first where
the parts differ that this step leads to. -/
theorem FirstDifference.below {lhs rhs : Application Term} {left right leftEnd rightEnd : Term}
    {step : Step} {path : List Step} (difference : FirstDifference left right path leftEnd rightEnd)
    (roots : (app lhs).root = (app rhs).root) (inLhs : lhs.part? step = some left)
    (inRhs : rhs.part? step = some right)
    (same : ∀ earlier, Step.Before earlier step → lhs.part? earlier = rhs.part? earlier) :
    FirstDifference (app lhs) (app rhs) (step :: path) leftEnd rightEnd where
  inLeft := by simpa [subtermAt?, inLhs] using difference.inLeft
  inRight := by simpa [subtermAt?, inRhs] using difference.inRight
  different := difference.different
  first earlier before := by
    cases before with
    | nil => exact congrArg some roots
    | cons deeper => simpa [subtermAt?, inLhs, inRhs] using difference.first _ deeper
    | rel sooner => simp only [subtermAt?, same _ sooner]

/-- Two different steps come one before the other. -/
instance : Std.Trichotomous Step.Before where
  trichotomous first second notBefore notAfter := by
    cases first with
    | subterm position =>
      cases second with
      | subterm other =>
        have same : position = other := Nat.le_antisymm
          (Nat.le_of_not_lt fun less => notAfter (.subterms other position less))
          (Nat.le_of_not_lt fun less => notBefore (.subterms position other less))
        rw [same]
      | field label => exact absurd (.subtermField position label) notBefore
    | field label =>
      cases second with
      | subterm position => exact absurd (.subtermField position label) notAfter
      | field other =>
        have same : label = other := Name.eq_of_not_lt
          (fun less => notBefore (.fields label other less))
          (fun less => notAfter (.fields other label less))
        rw [same]

/-- Two terms have at most one first difference. -/
theorem FirstDifference.unique {left right lhs rhs otherLhs otherRhs : Term}
    {path other : List Step} (difference : FirstDifference left right path lhs rhs)
    (again : FirstDifference left right other otherLhs otherRhs) :
    path = other ∧ lhs = otherLhs ∧ rhs = otherRhs := by
  have notBefore : ¬ List.Lex Step.Before path other := by
    intro before
    have same := again.first path before
    rw [difference.inLeft, difference.inRight] at same
    exact difference.different (Option.some.inj same)
  have notAfter : ¬ List.Lex Step.Before other path := by
    intro before
    have same := difference.first other before
    rw [again.inLeft, again.inRight] at same
    exact again.different (Option.some.inj same)
  obtain rfl := Std.Trichotomous.trichotomous path other notBefore notAfter
  exact ⟨rfl, Option.some.inj (difference.inLeft.symm.trans again.inLeft),
    Option.some.inj (difference.inRight.symm.trans again.inRight)⟩

end Term

/-- An item of two lists in a row is an item of the first one, or it is one of the second and has
all of the first before it. -/
theorem split_of_append {α : Type} {first second before after : List α} {item : α}
    (split : first ++ second = before ++ item :: after) :
    (∃ rest, first = before ++ item :: rest) ∨
      ∃ passed, before = first ++ passed ∧ second = passed ++ item :: after := by
  rcases List.append_eq_append_iff.mp split with ⟨passed, within, rest⟩ | ⟨passed, within, rest⟩
  · exact Or.inr ⟨passed, within, rest⟩
  · cases passed with
    | nil => exact Or.inr ⟨[], by simpa using within.symm, rest.symm⟩
    | cons head tail =>
      obtain ⟨rfl, -⟩ := List.cons.injEq .. ▸ rest
      exact Or.inl ⟨tail, within⟩

namespace Application

variable {lhs rhs : Application Term} {before after : List Equation} {failing : Equation}

/-- The equations between subterms come in the order of the positions. -/
theorem exists_position (left right : List Term)
    (split : List.zipWith Equation.mk left right = before ++ failing :: after) :
    ∃ position : Nat, left[position]? = some failing.lhs ∧
      right[position]? = some failing.rhs ∧ ∀ earlier < position, ∃ equation ∈ before,
        left[earlier]? = some equation.lhs ∧ right[earlier]? = some equation.rhs := by
  have paired (position : Nat) (equation : Equation)
      (found : (before ++ failing :: after)[position]? = some equation) :
      left[position]? = some equation.lhs ∧ right[position]? = some equation.rhs := by
    rw [← split, List.getElem?_zipWith_eq_some] at found
    obtain ⟨leftPart, rightPart, inLeft, inRight, rfl⟩ := found
    exact ⟨inLeft, inRight⟩
  obtain ⟨inLeft, inRight⟩ := paired before.length failing (by simp)
  refine ⟨before.length, inLeft, inRight, fun earlier less => ?_⟩
  refine ⟨before[earlier], List.getElem_mem less, paired earlier _ ?_⟩
  rw [List.getElem?_append_left less]
  exact List.getElem?_eq_getElem less

/-- The equations between fields come in the order of the labels. -/
theorem exists_label (split : commonFields lhs rhs = before ++ failing :: after) :
    ∃ label, lhs.fields.get? label = some failing.lhs ∧
      rhs.fields.get? label = some failing.rhs ∧
      ∀ earlier < label, ∀ left right, lhs.fields.get? earlier = some left →
        rhs.fields.get? earlier = some right → ⟨left, right⟩ ∈ before := by
  obtain ⟨passed, remaining, listed, made, further⟩ := List.filterMap_eq_append_iff.mp split
  obtain ⟨skipped, ⟨label, value⟩, later, rfl, unpaired, found, -⟩ :=
    List.filterMap_eq_cons_iff.mp further
  obtain ⟨other, inRhs, rfl⟩ := Option.map_eq_some_iff.mp found
  have inLhs : lhs.fields.get? label = some value := by
    rw [← SortedMap.mem_toList_iff, listed]
    simp
  have ascending := SortedMap.keys_ascending lhs.fields
  rw [SortedMap.keys, listed, List.pairwise_map] at ascending
  refine ⟨label, inLhs, inRhs, fun earlier less left right inLeft inRight => ?_⟩
  have member := (SortedMap.mem_toList_iff lhs.fields earlier left).mpr inLeft
  rw [listed, List.mem_append, List.mem_append, List.mem_cons] at member
  rcases member with early | skip | here | late
  · rw [← made, List.mem_filterMap]
    exact ⟨(earlier, left), early, by simp [inRight]⟩
  · have missing := unpaired (earlier, left) skip
    simp [inRight] at missing
  · obtain ⟨rfl, -⟩ := Prod.mk.injEq .. ▸ here
    exact absurd less (Name.lt_irrefl _)
  · have after : label < earlier :=
      (List.pairwise_cons.mp (List.pairwise_append.mp
        (List.pairwise_append.mp ascending).2.1).2.1).1 (earlier, left) late
    exact absurd (Name.lt_trans less after) (Name.lt_irrefl _)

/-- The equations that two applications with the same root come down to are between their parts,
in the order of the steps. -/
theorem exists_step (roots : (Term.app lhs).root = (Term.app rhs).root)
    (split : lhs.sharedEquations rhs = before ++ failing :: after) :
    ∃ step, lhs.part? step = some failing.lhs ∧ rhs.part? step = some failing.rhs ∧
      ∀ earlier, Term.Step.Before earlier step →
        (lhs.part? earlier = none ∧ rhs.part? earlier = none) ∨
          ∃ equation ∈ before, lhs.part? earlier = some equation.lhs ∧
            rhs.part? earlier = some equation.rhs := by
  obtain ⟨-, arities, labels⟩ := Term.Root.app.injEq .. ▸ roots
  rcases split_of_append split with ⟨rest, subterms⟩ | ⟨passed, rfl, fields⟩
  · obtain ⟨position, inLhs, inRhs, sooner⟩ := exists_position _ _ subterms
    refine ⟨.subterm position, inLhs, inRhs, fun earlier precedes => Or.inr ?_⟩
    cases precedes with
    | subterms first _ less => exact sooner first less
  · obtain ⟨label, inLhs, inRhs, sooner⟩ := exists_label fields
    refine ⟨.field label, inLhs, inRhs, fun earlier precedes => ?_⟩
    cases precedes with
    | subtermField position _ =>
      -- Every subterm is in an equation, since there are as many on either side.
      by_cases within : position < lhs.subterms.length
      · have withinRhs : position < rhs.subterms.length := arities ▸ within
        refine Or.inr ⟨⟨lhs.subterms[position], rhs.subterms[position]⟩, ?_,
          List.getElem?_eq_getElem within, List.getElem?_eq_getElem withinRhs⟩
        refine List.mem_append_left _ (List.mem_of_getElem? (i := position) ?_)
        rw [List.getElem?_zipWith_eq_some]
        exact ⟨_, _, List.getElem?_eq_getElem within, List.getElem?_eq_getElem withinRhs, rfl⟩
      · have outside : rhs.subterms.length ≤ position := arities ▸ Nat.le_of_not_lt within
        exact Or.inl ⟨List.getElem?_eq_none (Nat.le_of_not_lt within),
          List.getElem?_eq_none outside⟩
    | fields first _ less =>
      have alike := (SortedMap.keys_eq_iff _ _).mp labels first
      simp only [SortedMap.contains] at alike
      cases inLeft : lhs.fields.get? first with
      | none =>
        have inRight : rhs.fields.get? first = none := by simpa [inLeft] using alike
        exact Or.inl ⟨inLeft, inRight⟩
      | some left =>
        obtain ⟨right, inRight⟩ : ∃ right, rhs.fields.get? first = some right := by
          simpa [inLeft, Option.isSome_iff_exists] using alike
        exact Or.inr ⟨⟨left, right⟩, List.mem_append_right _
          (sooner first less left right inLeft inRight), inLeft, inRight⟩

end Application

/-- The terms are what the failure names: the clashing applications, a variable and the term that
contains it, on either side, or two applications with exactly the fields left over that only one
of them has. -/
def Failure.Describes (lhs rhs : Term) : Failure → Prop
  | cyclic cycle _ =>
    (lhs = .var cycle.name ∧ rhs = cycle.term) ∨ (lhs = cycle.term ∧ rhs = .var cycle.name)
  | mismatched (.functorClash _ _ left right) _ => lhs = left ∧ rhs = right
  | mismatched (.arityClash _ _ left right) _ => lhs = left ∧ rhs = right
  | mismatched (.unmatchedLabels lhsOnly rhsOnly) _ =>
    ∃ left right, lhs = .app left ∧ rhs = .app right ∧
      (∀ label value, lhsOnly.get? label = some value ↔
        left.fields.get? label = some value ∧ right.fields.get? label = none) ∧
      ∀ label value, rhsOnly.get? label = some value ↔
        right.fields.get? label = some value ∧ left.fields.get? label = none

/-- Under the store, the failure describes the first position at which the sides of the equation
differ. -/
def Failure.LocatedIn (failure : Failure) (store : Store) (equation : Equation) : Prop :=
  ∃ path lhs rhs,
    Term.FirstDifference (store.apply equation.lhs) (store.apply equation.rhs) path lhs rhs ∧
      failure.Describes lhs rhs

/-- A failure that lies at a part of two closed applications lies at the applications too, if they
have the same root and agree on everything before the part. -/
theorem Failure.LocatedIn.of_part {failure : Failure} {store : Store}
    {lhs rhs : Application Term} {before after : List Equation} {failing : Equation}
    (located : failure.LocatedIn store failing)
    (roots : (Term.app lhs).root = (Term.app rhs).root)
    (lhsClosed : lhs.row = none) (rhsClosed : rhs.row = none)
    (split : lhs.sharedEquations rhs = before ++ failing :: after)
    (held : ∀ equation ∈ before, store.apply equation.lhs = store.apply equation.rhs) :
    failure.LocatedIn store ⟨.app lhs, .app rhs⟩ := by
  obtain ⟨path, left, right, difference, describes⟩ := located
  obtain ⟨step, inLhs, inRhs, sooner⟩ := Application.exists_step roots split
  have applied (parts : Application Term) (closed : parts.row = none) :
      store.apply (.app parts) = .app (parts.map store.apply) :=
    Term.subst_app_of_closed store.lookup? parts closed
  refine ⟨step :: path, left, right, ?_, describes⟩
  rw [applied lhs lhsClosed, applied rhs rhsClosed]
  refine difference.below ?_ ?_ ?_ fun earlier precedes => ?_
  · simpa [Term.root, Application.map] using roots
  · rw [Application.part?_map, inLhs]
    rfl
  · rw [Application.part?_map, inRhs]
    rfl
  · rw [Application.part?_map, Application.part?_map]
    rcases sooner earlier precedes with ⟨noLhs, noRhs⟩ | ⟨equation, member, ofLhs, ofRhs⟩
    · rw [noLhs, noRhs]
    · rw [ofLhs, ofRhs]
      exact congrArg some (held equation member)

namespace Engine

variable {engine : Engine} {top equation : Equation}

/-- A refused move fails at the roots of the two resolved sides. -/
theorem Moved.locatedIn_of_refused {failure : Failure} {store : Store} {supply : FreshSupply}
    (normal : engine.store.Normal)
    (moved : engine.Moved top (engine.resolve equation) (.refused failure store supply)) :
    failure.LocatedIn engine.store equation := by
  suffices here : (engine.resolve equation).lhs.root ≠ (engine.resolve equation).rhs.root ∧
      failure.Describes (engine.resolve equation).lhs (engine.resolve equation).rhs from
    ⟨[], _, _, Term.firstDifference_root here.1, here.2⟩
  generalize shape : engine.resolve equation = sides at moved
  cases moved with
  | cyclic _ name term cycle assigns refused =>
    obtain ⟨parts, rfl, rfl, -⟩ := exists_app_of_cyclic normal (shape ▸ assigns) refused
    have different : (Term.var name).root ≠ (Term.app parts).root := nofun
    rcases assigns.1 with rfl | rfl
    · exact ⟨different, Or.inl ⟨rfl, rfl⟩⟩
    · exact ⟨different.symm, Or.inr ⟨rfl, rfl⟩⟩
  | functorClash lhs rhs different =>
    exact ⟨fun same => different (Term.Root.app.inj same).1, rfl, rfl⟩
  | arityClash lhs rhs functors different =>
    exact ⟨fun same => different (Term.Root.app.inj same).2.1, rfl, rfl⟩
  | unmatched lhs rhs leftover functors arities misaligned =>
    have labels : lhs.fields.keys ≠ rhs.fields.keys :=
      mt (Leftover.isEmpty_between_iff lhs rhs).mpr (uneven_of_align misaligned)
    rw [(eq_of_align_error misaligned).1]
    refine ⟨fun same => labels (Term.Root.app.inj same).2.2, lhs, rhs, rfl, rfl, ?_, ?_⟩
    · exact Application.get?_beyond_eq_some_iff lhs rhs
    · exact Application.get?_beyond_eq_some_iff rhs lhs

/-- Where work on row-free equations fails, the equations before some equation hold under the last
store, and the failure lies at the first difference of that one.

The induction goes along the run. If an equation is decomposed, the failure is in a part of it or
comes after all of its parts; in the second case the equation holds. -/
theorem WorksOff.located {final : Engine} {pending visited : List Equation}
    (work : WorksOff top engine pending visited final) (rowFree : engine.RowFreeOn pending)
    (active : engine.failure = none) {failure : Failure} (failed : final.failure = some failure) :
    ∃ before failing after, pending = before ++ failing :: after ∧
      (∀ equation ∈ before, final.store.apply equation.lhs = final.store.apply equation.rhs) ∧
      failure.LocatedIn final.store failing := by
  induction work with
  | done engine => exact nomatch active.symm.trans failed
  | settled engine final equation pending visited move rest inductionHypothesis =>
    obtain ⟨before, failing, after, rfl, held, located⟩ :=
      inductionHypothesis rowFree.tail active failed
    obtain ⟨-, refined⟩ := rest.normal_refinedBy rowFree.normal
    exact ⟨equation :: before, failing, after, rfl,
      List.forall_mem_cons.mpr ⟨apply_eq_of_settled move refined, held⟩, located⟩
  | bound engine final equation pending visited store move rest inductionHypothesis =>
    have bound := rowFree.bound move
    obtain ⟨before, failing, after, rfl, held, located⟩ := inductionHypothesis bound active failed
    obtain ⟨-, refined⟩ := rest.normal_refinedBy bound.normal
    exact ⟨equation :: before, failing, after, rfl,
      List.forall_mem_cons.mpr ⟨apply_eq_of_bound rowFree.normal move refined, held⟩, located⟩
  | decomposed engine final equation pending visited equations supply move rest
      inductionHypothesis =>
    obtain ⟨lhs, rhs, shape, lhsClosed, rhsClosed, functors, arities, labels, rfl, parts⟩ :=
      rowFree.decomposed move
    obtain ⟨before, failing, after, split, held, located⟩ := inductionHypothesis parts active failed
    obtain ⟨-, refined⟩ := rest.normal_refinedBy rowFree.normal
    rcases split_of_append split with ⟨others, shared⟩ | ⟨passed, rfl, further⟩
    · have roots : (Term.app lhs).root = (Term.app rhs).root := by
        simp only [Term.root, functors, arities, labels]
      have within := located.of_part roots lhsClosed rhsClosed shared held
      refine ⟨[], equation, pending, rfl, nofun, ?_⟩
      rw [← shape] at within
      rw [Failure.LocatedIn, ← refined equation.lhs, ← refined equation.rhs]
      exact within
    · refine ⟨equation :: passed, failing, after, congrArg (equation :: ·) further, ?_, located⟩
      rw [List.forall_mem_append] at held
      refine List.forall_mem_cons.mpr ⟨?_, held.2⟩
      exact apply_eq_of_decomposed move refined
        (Equation.decomposesSoundly_of_isRowFree _ _ rowFree.resolve) held.1
  | refused engine equation pending last move =>
    obtain rfl := Option.some.inj failed
    have moved : engine.Moved top (engine.resolve equation)
        (.refused last engine.store engine.supply) :=
      move ▸ engine.moved top (engine.resolve equation)
    have located : last.LocatedIn engine.store equation :=
      moved.locatedIn_of_refused rowFree.normal
    exact ⟨[], equation, pending, rfl, nofun, located⟩

/-- If an active engine with a row-free store fails on a row-free equation, whatever its row
extension, then the failure lies at the first position in pre-order at which the sides, as the
last store resolves them, have different roots. It names what stands there: the applications that
clash, the variable and the term that contains it, or the fields that only one of two applications
has. -/
theorem failure_lies_at_first_difference (engine : Engine) (reachable : Reachable engine)
    (active : engine.isActive = true) (storeRowFree : engine.store.IsRowFree)
    (equation : Equation) (rowFree : equation.IsRowFree) (budget : Nat) (report : Report)
    (answered : engine.unify budget equation = some report) (failure : Failure)
    (failed : report.engine.failure = some failure) :
    ∃ path lhs rhs, Term.FirstDifference (report.engine.store.apply equation.lhs)
        (report.engine.store.apply equation.rhs) path lhs rhs ∧
      failure.Describes lhs rhs := by
  have start : engine.failure = none := engine.isActive_iff.mp active
  obtain ⟨visited, work, -⟩ := worksOff_of_unify start answered
  have single : engine.RowFreeOn [equation] := by
    refine ⟨reachable.normal, storeRowFree, fun other member => ?_⟩
    exact List.mem_singleton.mp member ▸ rowFree
  obtain ⟨before, failing, after, split, -, located⟩ := work.located single start failed
  have only : failing ∈ [equation] := by
    rw [split]
    exact List.mem_append_right before List.mem_cons_self
  obtain rfl := List.mem_singleton.mp only
  exact located

/-- `Pair(x, Box(label: x, width: w)) == Pair(Tag(y), Box(label: Tag(Unit), width: Tag(w)))`. -/
def cyclicWidth : Equation where
  lhs := .app (.ofSubterms (.symbol "Pair") [.var (.symbol "x"), .app ⟨.symbol "Box", [],
    .ofList [(.symbol "label", .var (.symbol "x")), (.symbol "width", .var (.symbol "w"))], none⟩])
  rhs := .app (.ofSubterms (.symbol "Pair") [
    .app (.ofSubterms (.symbol "Tag") [.var (.symbol "y")]),
    .app ⟨.symbol "Box", [],
      .ofList [(.symbol "label", .app (.ofSubterms (.symbol "Tag")
          [.app (.ofSubterms (.symbol "Unit") [])])),
        (.symbol "width", .app (.ofSubterms (.symbol "Tag") [.var (.symbol "w")]))], none⟩])

/-- The subterms and the labels bind `x` and `y`; the widths of the boxes are what fails, and they
are the first place where the sides differ then. -/
theorem failure_lies_at_first_difference_width : ∃ report failure path lhs rhs,
    boxEngine.unify 9 cyclicWidth = some report ∧ report.engine.failure = some failure ∧
      report.engine.store.keys = [.symbol "x", .symbol "y"] ∧
      failure = .cyclic ⟨.symbol "w", .app (.ofSubterms (.symbol "Tag") [.var (.symbol "w")])⟩
        (some cyclicWidth) ∧
      Term.FirstDifference (report.engine.store.apply cyclicWidth.lhs)
        (report.engine.store.apply cyclicWidth.rhs) path lhs rhs ∧
      failure.Describes lhs rhs := by
  have outcome : ((boxEngine.unify 9 cyclicWidth).map fun report =>
      (report.engine.failure, report.engine.store.keys)) =
        some (some (.cyclic ⟨.symbol "w", .app (.ofSubterms (.symbol "Tag") [.var (.symbol "w")])⟩
          (some cyclicWidth)), [.symbol "x", .symbol "y"]) := by decide +kernel
  obtain ⟨report, answered, same⟩ := Option.map_eq_some_iff.mp outcome
  obtain ⟨failed, keys⟩ := Prod.mk.injEq .. ▸ same
  have rowFree : cyclicWidth.IsRowFree := ⟨by decide +kernel, by decide +kernel⟩
  obtain ⟨path, lhs, rhs, difference, describes⟩ := failure_lies_at_first_difference boxEngine
    boxEngine_reachable rfl nofun cyclicWidth rowFree 9 report answered _ failed
  exact ⟨report, _, path, lhs, rhs, answered, failed, keys, rfl, difference, describes⟩

end Engine

end RowUnification
