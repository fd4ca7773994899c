import Mathlib.Data.List.Basic
import RowUnification.Proofs.Conclusions

/-!
# Loose terms settle

Say that equations covered by a number of names are worked off. Then so is the
equation of a loose term and a term within the names: it is decomposed at most as
often as the loose term has subterms and fields. Its shared equations are covered by
the names. What is left over goes into a further loose term that is narrower, or, if
nothing was shared, the row of the other record is still a name and is bound at once.
Afterwards the tail lies within the names, or it ends in a spare tail again.

The equation of two loose terms with different tails is decomposed once, since their
rows are spare.
-/

namespace RowUnification

/-- The number of subterms and fields. -/
def Term.breadth : Term → Nat
  | .var _ => 0
  | .app parts => parts.subterms.length + parts.fields.values.length

namespace FreshSupply

variable {supply : FreshSupply}

/-- What the supply makes was not known before. -/
theorem not_isBelow_name (drawn : Nat) : ¬ (supply.name drawn).IsBelow supply.next :=
  Nat.not_lt.mpr (Nat.le_add_right _ _)

/-- A known name is not made. -/
theorem ne_name {name : Name} (known : name.IsBelow supply.next) (drawn : Nat) :
    name ≠ supply.name drawn := by
  rintro rfl
  exact not_isBelow_name drawn known

/-- The supply makes no name twice. -/
theorem name_ne_name {drawn other : Nat} (different : drawn ≠ other) :
    supply.name drawn ≠ supply.name other := by
  intro same
  exact different (Nat.add_left_cancel (Name.fresh.inj same))

end FreshSupply

namespace Application

/-- The excerpt of a record under a tail ends in the tail. -/
theorem InnerWithin.endsIn_surplus {record : Application Term} {names : Finset Name}
    (inner : record.InnerWithin names) (other : Application Term) (tail : Name) :
    (record.surplus other (some (.var tail))).EndsIn names tail := by
  refine .app _ rfl fun child member => ?_
  rcases member with subterm | field
  · exact nomatch subterm
  · exact inner child (Or.inr (SortedMap.mem_values_of_mem_values_keep _ _ child field))

/-- Resolving the excerpt under a free tail does not make it broader. -/
theorem breadth_apply_surplus (store : Store) (record other : Application Term) (tail : Name)
    (free : store.lookup? tail = none) :
    (store.apply (record.surplus other (some (.var tail)))).breadth =
      (record.beyond other).values.length := by
  have rowImage : ((⟨record.functor, [], record.beyond other, some (.var tail)⟩ :
      Application Term).map store.apply).row = some (.var tail) := by
    simp [map, Store.apply_var_of_free store tail free]
  have applied : store.apply (record.surplus other (some (.var tail))) =
      .app ((⟨record.functor, [], record.beyond other, some (.var tail)⟩ :
        Application Term).map store.apply) :=
    (Term.subst_app _ _).trans (congrArg Term.app (spliceRow_of_row_var _ tail rowImage))
  rw [applied]
  simp [Term.breadth, map]

/-- If the excerpt of the left record is as broad as the record, the two records share
nothing. -/
theorem sharedEquations_eq_nil {lhs rhs : Application Term}
    (broad : ¬ (lhs.beyond rhs).values.length < (Term.app lhs).breadth) :
    lhs.sharedEquations rhs = [] := by
  have sharedLength : (commonFields lhs rhs).length = (lhs.shared rhs).values.length := by
    rw [← map_lhs_commonFields, List.length_map]
  have fields : (lhs.shared rhs).values.length + (lhs.beyond rhs).values.length =
      lhs.fields.values.length := by
    simp only [shared, beyond, SortedMap.values, SortedMap.toList_keep, List.length_map]
    exact (List.length_eq_length_filter_add _).symm
  simp only [Term.breadth] at broad
  have noSubterms : lhs.subterms = [] := List.length_eq_zero_iff.mp (by omega)
  have noCommon : commonFields lhs rhs = [] := List.length_eq_zero_iff.mp (by omega)
  rw [sharedEquations, noSubterms, noCommon]
  rfl

end Application

namespace Engine

variable {top : Equation}

/-- The names have not become more, and if they have not become fewer, nothing was bound. -/
def Solved (engine : Engine) (names : Finset Name) (final : Engine) : Prop :=
  ∃ laterNames, Advances [] engine names final laterNames ∧
    (laterNames.card = names.card → final.store = engine.store ∧ laterNames = names)

/-- Equations covered by at most the given number of names are solved. -/
def SolvesWithin (top : Equation) (number : Nat) : Prop :=
  ∀ engine names pending, Confined engine names → names.card ≤ number →
    engine.Covers names pending → Concludes top engine pending (Solved engine names)

/-- The run touched the tail alone, which trails the names or a tail made on the way. -/
def Settles (engine : Engine) (names : Finset Name) (tail : Name) (final : Engine) : Prop :=
  ∃ laterNames, Advances [tail] engine names final laterNames ∧
    Trails engine.supply.next [tail] final laterNames (.var tail)

/-- Loose terms with fewer subterms and fields than given settle with terms within the names. -/
def SettlesNarrower (top : Equation) (number size : Nat) : Prop :=
  ∀ engine names tail lhs rhs, Confined engine names → names.card ≤ number →
    engine.Loose names tail lhs → (engine.store.apply rhs).Within names →
      (engine.store.apply lhs).breadth < size →
        Concludes top engine [⟨lhs, rhs⟩] (Settles engine names tail)

/-- A tail that settles after a step that touched nothing settles with the step. -/
theorem Settles.after_step {engine middle final : Engine} {names middleNames : Finset Name}
    {tail : Name} (near : Advances [] engine names middle middleNames)
    (settles : Settles middle middleNames tail final) : Settles engine names tail final := by
  obtain ⟨laterNames, far, trails⟩ := settles
  exact ⟨laterNames, near.trans _ far (by simp), trails.mono near.supply⟩

/-- A tail that comes to lie within the names settles. -/
theorem Settles.of_within {engine middle final : Engine} {names middleNames : Finset Name}
    {tail : Name} (near : Advances [] engine names middle middleNames)
    (outcome : ∃ laterNames, Advances [tail] middle middleNames final laterNames ∧
      (final.store.apply (.var tail)).Within laterNames) : Settles engine names tail final := by
  obtain ⟨laterNames, far, within⟩ := outcome
  exact ⟨laterNames, near.trans _ far (by simp), Or.inl within⟩

/-- A tail that trails two tails made on the way settles. -/
theorem Settles.of_extension {engine middle final : Engine} {names middleNames : Finset Name}
    {tail first second : Name} (near : Advances [] engine names middle middleNames)
    (firstMade : ¬ first.IsBelow engine.supply.next)
    (secondMade : ¬ second.IsBelow engine.supply.next)
    (outcome : ∃ laterNames, Advances [tail, first, second] middle middleNames final laterNames ∧
      Trails middle.supply.next [first, second] final laterNames (.var tail)) :
    Settles engine names tail final := by
  obtain ⟨laterNames, far, trails⟩ := outcome
  have notMade (name : Name) (member : name ∈ [first, second])
      (below : name.IsBelow engine.supply.next) : False := by
    rcases List.mem_cons.mp member with rfl | isSecond
    · exact firstMade below
    · exact secondMade (List.mem_singleton.mp isSecond ▸ below)
  refine ⟨laterNames, near.trans _ far fun name member below => ?_, ?_⟩
  · rcases member with none | touched
    · exact nomatch none
    · rcases List.mem_cons.mp touched with rfl | made
      · exact List.mem_cons_self
      · exact (notMade name made below).elim
  · rcases trails with within | ⟨last, loose, touchable⟩
    · exact Or.inl within
    · exact Or.inr ⟨last, loose, fun below =>
        (notMade last (touchable (below.mono near.supply)) below).elim⟩

/-- The engine made two names and worked on without touching another variable known before. -/
structure Prepares (engine : Engine) (names : Finset Name) (middle : Engine)
    (middleNames : Finset Name) : Prop where
  /-- The names were as they should be. -/
  confined : engine.Confined names
  /-- What was done after the two names were made. -/
  near : Advances [] { engine with supply := engine.supply.after 2 } names middle middleNames

namespace Prepares

variable {engine middle : Engine} {names middleNames : Finset Name}

/-- Seen from before the two names were made. -/
theorem advances (prepares : Prepares engine names middle middleNames) :
    Advances [] engine names middle middleNames :=
  (prepares.confined.advances_supply _ (Nat.le_add_right _ 2)).trans [] prepares.near nofun

/-- The two names are spare. -/
theorem spare (prepares : Prepares engine names middle middleNames) {drawn : Nat}
    (made : drawn < 2) : middle.Spare middleNames (engine.supply.name drawn) :=
  prepares.near.untouched _ (prepares.confined.spare_made 2 drawn made) nofun

/-- The excerpt of a record under one of the two names is loose. -/
theorem excerpt (prepares : Prepares engine names middle middleNames)
    {record : Application Term} (inner : record.InnerWithin names) (other : Application Term)
    {drawn : Nat} (made : drawn < 2) :
    middle.Loose middleNames (engine.supply.name drawn)
      (record.surplus other (some (engine.supply.tail drawn))) :=
  prepares.near.loose_of_endsIn (inner.endsIn_surplus other _) (prepares.spare made)

end Prepares

section Applications

variable {engine : Engine} {names : Finset Name} {lhs rhs : Application Term} {left right : Term}

/-- Equating two terms that resolve to applications fails or aligns their records. -/
theorem Confined.concludes_applications {outcome : Engine → Prop}
    (confined : engine.Confined names) (lhsShape : engine.store.apply left = .app lhs)
    (rhsShape : engine.store.apply right = .app rhs)
    (decomposed : ∀ aligned supply, lhs.subterms.length = rhs.subterms.length →
      Aligned lhs rhs engine.supply aligned supply →
      Concludes top { engine with supply }
        (List.zipWith Equation.mk lhs.subterms rhs.subterms ++ aligned) outcome) :
    Concludes top engine [⟨left, right⟩] outcome := by
  refine .cons (fun move => ?_) (fun store move => ?_) (fun equations supply move => ?_)
  · obtain ⟨name, shape⟩ := (move ▸ engine.moved top _).of_settled
    rw [resolve, Equation.mk.injEq, lhsShape] at shape
    cases shape.1
  · obtain ⟨name, term, assigns, -, -, -⟩ := bound_of_move confined.normal move
    simp [resolve, Equation.Assigns, lhsShape, rhsShape] at assigns
  · obtain ⟨first, second, aligned, shape, -, -, arities, way, rfl⟩ :=
      aligned_of_move confined.normal confined.standard move
    rw [resolve, lhsShape, rhsShape, Equation.mk.injEq, Term.app.injEq, Term.app.injEq] at shape
    obtain ⟨rfl, rfl⟩ := shape
    rw [List.append_nil]
    exact decomposed aligned supply arities way

/-- The shared equations of two resolved applications are covered by the names if the
subterms and fields lie within them. -/
theorem Confined.covers_sharedEquations (confined : engine.Confined names)
    (lhsShape : engine.store.apply left = .app lhs)
    (rhsShape : engine.store.apply right = .app rhs)
    (arities : lhs.subterms.length = rhs.subterms.length) (lhsInner : lhs.InnerWithin names)
    (rhsInner : rhs.InnerWithin names) : engine.Covers names (lhs.sharedEquations rhs) := by
  intro equation member name inside
  have lhsResolved : engine.store.apply (.app lhs) = .app lhs :=
    lhsShape ▸ confined.normal.refinedBy_self left
  have rhsResolved : engine.store.apply (.app rhs) = .app rhs :=
    rhsShape ▸ confined.normal.refinedBy_self right
  obtain ⟨inLhs, inRhs⟩ := Application.mem_of_mem_sharedEquations arities equation member
  obtain ⟨lhsPart, rhsPart⟩ :=
    Application.mem_children_of_mem_sharedEquations arities equation member
  rw [Engine.resolve, confined.normal.apply_child lhs lhsResolved _ lhsPart,
    confined.normal.apply_child rhs rhsResolved _ rhsPart] at inside
  rcases inside with onLeft | onRight
  · exact lhsInner equation.lhs inLhs name onLeft
  · exact rhsInner equation.rhs inRhs name onRight

/-- The row of a resolved application within the names is one of them. -/
theorem Confined.exists_row_name (confined : engine.Confined names)
    (shape : engine.store.apply right = .app rhs) (within : (Term.app rhs).Within names)
    {row : Term} (opened : rhs.row = some row) : ∃ name, row = .var name ∧ name ∈ names := by
  have flat : (Term.app rhs).Flat := shape ▸ confined.normal.flat_apply right
  rcases flat.row with closed | ⟨name, isVariable⟩
  · exact nomatch closed.symm.trans opened
  · obtain rfl := Option.some.inj (isVariable.symm.trans opened)
    refine ⟨name, rfl, (Term.within_var_iff name).mp (within.child _ ?_)⟩
    exact (Application.mem_children_iff rhs _).mpr (Or.inr (Or.inr opened))

/-- The excerpt of a record settles with a row: it is narrower than the record, or the row
is a name and exchanged for the tail. -/
theorem Confined.concludes_excerpt {number : Nat} {record other : Application Term}
    {tail row : Name} (confined : engine.Confined names) (count : names.card ≤ number)
    (narrower : SettlesNarrower top number (Term.app record).breadth)
    (loose : engine.Loose names tail (record.surplus other (some (.var tail))))
    (rowWithin : (engine.store.apply (.var row)).Within names)
    (narrow : (record.beyond other).values.length < (Term.app record).breadth ∨ row ∈ names) :
    Concludes top engine [⟨record.surplus other (some (.var tail)), .var row⟩]
      (Settles engine names tail) := by
  rcases narrow with narrow | member
  · refine narrower engine names tail _ _ confined count loose rowWithin ?_
    rw [Application.breadth_apply_surplus _ _ _ _ loose.spare.free]
    exact narrow
  · have rowFree := Store.apply_var_of_free _ row (confined.free row member)
    refine (confined.concludes_exchange loose (Term.subst_app _ _) rowFree member).imp ?_
    intro final advances
    exact ⟨_, advances, Or.inl (advances.confined.within_var (Finset.mem_insert_self _ _))⟩

/-- Two records of which the left one has a spare row are extended, and the row settles. -/
theorem Prepares.concludes_extension {middle : Engine} {middleNames : Finset Name} {number : Nat}
    {tail : Name} (prepares : Prepares engine names middle middleNames)
    (count : names.card ≤ number)
    (narrower : SettlesNarrower top number (Term.app lhs).breadth)
    (lhsInner : lhs.InnerWithin names) (rhsInner : rhs.InnerWithin names)
    (spare : engine.Spare names tail) {row : Name} (member : row ∈ names)
    (narrow : (lhs.beyond rhs).values.length < (Term.app lhs).breadth ∨ middleNames = names) :
    Concludes top middle (lhs.extensionEquations rhs (.var tail) (.var row) engine.supply.tail)
        (Settles engine names tail) ∧
      Concludes top middle (rhs.extensionEquations lhs (.var row) (.var tail) engine.supply.tail)
        (Settles engine names tail) := by
  have near := prepares.advances
  have ownSpare := near.untouched tail spare nofun
  have tailOther (drawn : Nat) : tail ≠ engine.supply.name drawn :=
    FreshSupply.ne_name spare.known drawn
  have distinct (drawn other : Nat) (different : drawn ≠ other) :
      [tail, engine.supply.name drawn, engine.supply.name other].Nodup := by
    simp [tailOther, FreshSupply.name_ne_name different]
  have solveRow (drawn : Nat) (made : drawn < 2) (state : Engine)
      (step : Advances [tail] middle middleNames state middleNames) :
      Concludes top state
        [⟨lhs.surplus rhs (some (.var (engine.supply.name drawn))), .var row⟩]
        (Settles state middleNames (engine.supply.name drawn)) := by
    refine step.confined.concludes_excerpt (near.fewer.trans count) narrower
      (step.loose (prepares.excerpt lhsInner rhs made) fun touched =>
        tailOther drawn (List.mem_singleton.mp touched).symm)
      (step.within (near.carried row member)) (narrow.imp_right ?_)
    rintro rfl
    exact member
  constructor
  · refine (near.confined.concludes_extension_row_first ownSpare
      (prepares.excerpt rhsInner lhs (Nat.lt_succ_self 1)) (distinct 1 0 (by omega))
      (solveRow 0 (by omega))).imp fun final => ?_
    exact .of_extension near (FreshSupply.not_isBelow_name 1) (FreshSupply.not_isBelow_name 0)
  · refine (near.confined.concludes_extension_spare_first ownSpare
      (prepares.excerpt rhsInner lhs (Nat.zero_lt_succ 1)) (distinct 0 1 (by omega))
      (solveRow 1 (by omega))).imp fun final => ?_
    exact .of_extension near (FreshSupply.not_isBelow_name 0) (FreshSupply.not_isBelow_name 1)

/-- The shared equations of a record and another one are solved. Either the excerpt of the
record is narrower than the record, or nothing is shared and the names stay. -/
theorem Confined.concludes_shared {number : Nat} (confined : engine.Confined names)
    (count : names.card ≤ number) (solves : SolvesWithin top number)
    (covers : engine.Covers names (lhs.sharedEquations rhs)) :
    Concludes top engine (lhs.sharedEquations rhs) fun middle =>
      ∃ middleNames, Advances [] engine names middle middleNames ∧
        ((lhs.beyond rhs).values.length < (Term.app lhs).breadth ∨ middleNames = names) := by
  by_cases narrow : (lhs.beyond rhs).values.length < (Term.app lhs).breadth
  · refine (solves engine names _ confined count covers).imp ?_
    rintro middle ⟨middleNames, near, -⟩
    exact ⟨middleNames, near, Or.inl narrow⟩
  · rw [Application.sharedEquations_eq_nil narrow]
    exact .nil ⟨names, confined.advances_self, Or.inr rfl⟩

/-- A spare row against the row of a record within the names, if there is one, settles. -/
theorem Confined.concludes_rows {tail : Name} (confined : engine.Confined names)
    (spare : engine.Spare names tail)
    (rowWithin : ∀ row, rhs.row = some row → (engine.store.apply row).Within names) :
    Concludes top engine (rowEquations (some (.var tail)) rhs.row)
      (Settles engine names tail) := by
  cases rhsRow : rhs.row with
  | none =>
    exact .nil ⟨names, confined.advances_self.weaken nofun,
      Or.inr ⟨tail, spare.loose, fun _ => List.mem_singleton.mpr rfl⟩⟩
  | some row =>
    exact (confined.concludes_spare_within spare (rowWithin row rhsRow)).imp fun final =>
      .of_within confined.advances_self

/-- A loose application settles with an application within the names, provided narrower
terms do. -/
theorem Confined.concludes_loose_applications {number : Nat} {tail : Name}
    (confined : engine.Confined names) (count : names.card ≤ number)
    (solves : SolvesWithin top number)
    (narrower : SettlesNarrower top number (Term.app lhs).breadth)
    (loose : engine.Loose names tail left) (within : (engine.store.apply right).Within names)
    (lhsShape : engine.store.apply left = .app lhs)
    (rhsShape : engine.store.apply right = .app rhs) :
    Concludes top engine [⟨left, right⟩] (Settles engine names tail) := by
  rw [rhsShape] at within
  obtain ⟨lhsRow, lhsInner⟩ := (lhsShape ▸ loose.ends).row_inner
  refine confined.concludes_applications lhsShape rhsShape fun aligned supply arities way => ?_
  have made := confined.advances_supply supply way.next_le
  have covers := confined.covers_sharedEquations lhsShape rhsShape arities lhsInner within.inner
  have sharedDone := made.confined.concludes_shared count solves covers
  cases way with
  | level labels =>
    rw [← List.append_assoc, lhsRow]
    refine sharedDone.append made.confined.active fun middle active outcome => ?_
    obtain ⟨middleNames, near, -⟩ := outcome
    have reached := made.trans [] near nofun
    refine (near.confined.concludes_rows (reached.untouched tail loose.spare nofun)
      fun row rhsOpen => ?_).imp fun final => .after_step reached
    obtain ⟨name, rfl, member⟩ := confined.exists_row_name rhsShape within rhsOpen
    exact near.carried name member
  | fillLhs row lhsOpen rhsClosed contained =>
    obtain rfl := Option.some.inj (lhsRow.symm.trans lhsOpen)
    rw [← List.append_assoc]
    refine sharedDone.append made.confined.active fun middle active outcome => ?_
    obtain ⟨middleNames, near, -⟩ := outcome
    have reached := made.trans [] near nofun
    have excerptWithin : (rhs.surplus lhs none).Within names := by
      intro name inside
      rcases Application.mem_occurrences_surplus inside with inRecord | ⟨_, noRow, _⟩
      · exact within name inRecord
      · contradiction
    refine .swap near.confined.normal active ((near.confined.concludes_spare_within
      (reached.untouched tail loose.spare nofun)
      (near.within (made.confined.within_apply excerptWithin))).imp fun final => ?_)
    exact .of_within reached
  | fillRhs row lhsClosed rhsOpen contained => exact nomatch lhsClosed.symm.trans lhsRow
  | extended first second firstRow secondRow sides firstOpen secondOpen distinct =>
    rw [← List.append_assoc]
    refine sharedDone.append made.confined.active fun middle active outcome => ?_
    obtain ⟨middleNames, near, narrow⟩ := outcome
    have prepares : Prepares engine names middle middleNames := ⟨confined, near⟩
    rcases sides with ⟨rfl, rfl⟩ | ⟨rfl, rfl⟩
    · obtain rfl := Option.some.inj (lhsRow.symm.trans firstOpen)
      obtain ⟨name, rfl, member⟩ := confined.exists_row_name rhsShape within secondOpen
      exact (prepares.concludes_extension count narrower lhsInner within.inner loose.spare member
        narrow).1
    · obtain rfl := Option.some.inj (lhsRow.symm.trans secondOpen)
      obtain ⟨name, rfl, member⟩ := confined.exists_row_name rhsShape within firstOpen
      exact (prepares.concludes_extension count narrower lhsInner within.inner loose.spare member
        narrow).2

end Applications

/-- If equations covered by a number of names are worked off, loose terms settle with terms
within as many names. The induction is on the number of subterms and fields. -/
theorem SolvesWithin.settlesNarrower {number : Nat} (solves : SolvesWithin top number)
    (size : Nat) : SettlesNarrower top number size := by
  induction size with
  | zero => exact fun _ _ _ _ _ _ _ _ _ narrow => absurd narrow (Nat.not_lt_zero _)
  | succ size inductionHypothesis =>
    intro engine names tail left right confined count loose within narrow
    cases lhsShape : engine.store.apply left with
    | var name =>
      have ends := loose.ends
      rw [lhsShape] at ends
      cases ends
      have same : engine.resolve ⟨.var tail, right⟩ = engine.resolve ⟨left, right⟩ := by
        rw [resolve, resolve, lhsShape, Store.apply_var_of_free _ tail loose.spare.free]
      exact .congr same ((confined.concludes_spare_within loose.spare within).imp
        fun final => .of_within confined.advances_self)
    | app lhs =>
      cases rhsShape : engine.store.apply right with
      | var name =>
        have member : name ∈ names := (Term.within_var_iff name).mp (rhsShape ▸ within)
        refine (confined.concludes_exchange loose lhsShape rhsShape member).imp ?_
        intro final advances
        exact ⟨_, advances, Or.inl (advances.confined.within_var (Finset.mem_insert_self _ _))⟩
      | app rhs =>
        rw [lhsShape] at narrow
        refine confined.concludes_loose_applications count solves ?_ loose within lhsShape rhsShape
        intro _ _ _ _ _ othersConfined othersCount othersLoose othersWithin othersNarrow
        exact inductionHypothesis _ _ _ _ _ othersConfined othersCount othersLoose othersWithin
          (by omega)

/-- If equations covered by a number of names are worked off, every loose term settles with
terms within as many names. -/
theorem SolvesWithin.settles {number : Nat} (solves : SolvesWithin top number) {engine : Engine}
    {names : Finset Name} {tail : Name} {left right : Term} (confined : engine.Confined names)
    (count : names.card ≤ number) (loose : engine.Loose names tail left)
    (within : (engine.store.apply right).Within names) :
    Concludes top engine [⟨left, right⟩] (Settles engine names tail) :=
  solves.settlesNarrower _ engine names tail left right confined count loose within
    (Nat.lt_succ_self _)

section Pairs

variable {engine : Engine} {names : Finset Name} {lhs rhs : Application Term} {left right : Term}
  {leftTail rightTail : Name}

/-- Two records with spare rows are extended, and only these are touched. -/
theorem Prepares.concludes_extension_of_spares {middle : Engine} {middleNames : Finset Name}
    (prepares : Prepares engine names middle middleNames) (lhsInner : lhs.InnerWithin names)
    (rhsInner : rhs.InnerWithin names) (leftSpare : engine.Spare names leftTail)
    (rightSpare : engine.Spare names rightTail) (different : leftTail ≠ rightTail) :
    Concludes top middle
      (lhs.extensionEquations rhs (.var leftTail) (.var rightTail) engine.supply.tail) fun final =>
        ∃ laterNames, Advances [leftTail, rightTail] engine names final laterNames := by
  have near := prepares.advances
  have distinct : [leftTail, rightTail, engine.supply.name 0, engine.supply.name 1].Nodup := by
    simp [different, FreshSupply.ne_name leftSpare.known, FreshSupply.ne_name rightSpare.known,
      FreshSupply.name_ne_name Nat.zero_ne_one]
  refine (near.confined.concludes_extension_of_spares
    (prepares.excerpt lhsInner rhs (Nat.zero_lt_succ 1))
    (prepares.excerpt rhsInner lhs (Nat.lt_succ_self 1)) (near.untouched _ leftSpare nofun)
    (near.untouched _ rightSpare nofun) distinct).imp fun final far => ?_
  refine ⟨_, near.trans _ far fun name member below => ?_⟩
  have first : name ≠ engine.supply.name 0 := FreshSupply.ne_name below 0
  have second : name ≠ engine.supply.name 1 := FreshSupply.ne_name below 1
  simpa [first, second] using member

/-- The equation of two loose applications with different tails is worked off. -/
theorem Confined.concludes_loose_pair_applications {number : Nat}
    (confined : engine.Confined names) (count : names.card ≤ number)
    (solves : SolvesWithin top number) (leftLoose : engine.Loose names leftTail left)
    (rightLoose : engine.Loose names rightTail right) (different : leftTail ≠ rightTail)
    (lhsShape : engine.store.apply left = .app lhs)
    (rhsShape : engine.store.apply right = .app rhs) :
    Concludes top engine [⟨left, right⟩] fun final =>
      ∃ laterNames, Advances [leftTail, rightTail] engine names final laterNames := by
  obtain ⟨lhsRow, lhsInner⟩ := (lhsShape ▸ leftLoose.ends).row_inner
  obtain ⟨rhsRow, rhsInner⟩ := (rhsShape ▸ rightLoose.ends).row_inner
  refine confined.concludes_applications lhsShape rhsShape fun aligned supply arities way => ?_
  have made := confined.advances_supply supply way.next_le
  have covers := confined.covers_sharedEquations lhsShape rhsShape arities lhsInner rhsInner
  have sharedDone := solves { engine with supply } names _ made.confined count covers
  cases way with
  | level labels =>
    rw [← List.append_assoc, lhsRow, rhsRow]
    refine sharedDone.append made.confined.active fun middle active outcome => ?_
    obtain ⟨middleNames, near, -⟩ := outcome
    have reached := made.trans [] near nofun
    have leftSpare := reached.untouched leftTail leftLoose.spare nofun
    have rightSpare := reached.untouched rightTail rightLoose.spare nofun
    refine (near.confined.concludes_spare_loose leftSpare rightSpare.loose different).imp ?_
    rintro final ⟨far, -⟩
    exact ⟨_, reached.trans _ far (by simp)⟩
  | fillLhs row lhsOpen rhsClosed contained => exact nomatch rhsClosed.symm.trans rhsRow
  | fillRhs row lhsClosed rhsOpen contained => exact nomatch lhsClosed.symm.trans lhsRow
  | extended first second firstRow secondRow sides firstOpen secondOpen distinct =>
    rw [← List.append_assoc]
    refine sharedDone.append made.confined.active fun middle active outcome => ?_
    obtain ⟨middleNames, near, -⟩ := outcome
    have prepares : Prepares engine names middle middleNames := ⟨confined, near⟩
    rcases sides with ⟨rfl, rfl⟩ | ⟨rfl, rfl⟩
    · obtain rfl := Option.some.inj (lhsRow.symm.trans firstOpen)
      obtain rfl := Option.some.inj (rhsRow.symm.trans secondOpen)
      exact prepares.concludes_extension_of_spares lhsInner rhsInner leftLoose.spare
        rightLoose.spare different
    · obtain rfl := Option.some.inj (lhsRow.symm.trans secondOpen)
      obtain rfl := Option.some.inj (rhsRow.symm.trans firstOpen)
      refine (prepares.concludes_extension_of_spares rhsInner lhsInner rightLoose.spare
        leftLoose.spare (Ne.symm different)).imp ?_
      rintro final ⟨laterNames, advances⟩
      exact ⟨laterNames, advances.weaken fun name member _ => by simpa [or_comm] using member⟩

/-- The equation of two loose terms with different tails is worked off. -/
theorem Confined.concludes_loose_pair {number : Nat} (confined : engine.Confined names)
    (count : names.card ≤ number) (solves : SolvesWithin top number)
    (leftLoose : engine.Loose names leftTail left)
    (rightLoose : engine.Loose names rightTail right) (different : leftTail ≠ rightTail) :
    Concludes top engine [⟨left, right⟩] fun final =>
      ∃ laterNames, Advances [leftTail, rightTail] engine names final laterNames := by
  have variableOf (term : Term) (tail name : Name) (loose : engine.Loose names tail term)
      (shape : engine.store.apply term = .var name) :
      engine.store.apply (.var tail) = engine.store.apply term := by
    have ends := loose.ends
    rw [shape] at ends
    cases ends
    rw [shape, Store.apply_var_of_free _ tail loose.spare.free]
  cases lhsShape : engine.store.apply left with
  | var name =>
    have same : engine.resolve ⟨.var leftTail, right⟩ = engine.resolve ⟨left, right⟩ := by
      rw [resolve, resolve, variableOf left leftTail name leftLoose lhsShape]
    refine .congr same
      ((confined.concludes_spare_loose leftLoose.spare rightLoose different).imp ?_)
    exact fun final outcome => ⟨_, outcome.1⟩
  | app lhs =>
    cases rhsShape : engine.store.apply right with
    | var name =>
      have same : engine.resolve ⟨.var rightTail, left⟩ = engine.resolve ⟨right, left⟩ := by
        rw [resolve, resolve, variableOf right rightTail name rightLoose rhsShape]
      refine .swap confined.normal confined.active (.congr same
        ((confined.concludes_spare_loose rightLoose.spare leftLoose (Ne.symm different)).imp ?_))
      exact fun final outcome =>
        ⟨_, outcome.1.weaken fun name member _ => by simpa [or_comm] using member⟩
    | app rhs =>
      exact confined.concludes_loose_pair_applications count solves leftLoose rightLoose different
        lhsShape rhsShape

end Pairs

end Engine

end RowUnification
