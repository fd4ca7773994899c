import RowUnification.Proofs.Soundness

/-!
# What decomposing two applications comes to

Two applications with the same functor and as many subterms are decomposed, or they are
refused because of their labels. They are refused exactly if the labels differ and the
fields left over have nowhere to go: there is no row extension, a record that lacks a
label of the other has no row, or both rows are the same variable. The refusal reports
the fields that each record has beyond the other and leaves store and supply alone.

Decomposing records with the same labels draws no index either; with different labels it
draws one for each row. Whatever makes the equations equal that two applications come down
to makes the applications equal, unless the labels are the same and one of them alone has a
row, and whatever it puts for the rows and for the tails made on the way. The last holds even
if the supply starts over between two tails.

With any row extension these equations come in one order: the subterms, the common fields by
label, the rows filled and the tails. `Application.Breakdown` says which they are.
-/

namespace RowUnification

namespace Application

/-- The other record has a label that this one does not have. -/
def Lacks (record other : Application Term) : Prop :=
  ∃ label, other.fields.contains label = true ∧ record.fields.contains label = false

/-- A record lacks a label of another exactly if the other has fields beyond it. -/
theorem lacks_iff (record other : Application Term) :
    record.Lacks other ↔ ¬ (other.beyond record).isEmpty = true := by
  simp only [Lacks, beyond_isEmpty_iff, Classical.not_forall, Bool.not_eq_true, exists_prop]

/-- Fields left over between the records have nowhere to go: a record that has to take fields in is
closed, or both would take them into the same row. -/
def Unabsorbable (lhs rhs : Application Term) : Prop :=
  (lhs.Lacks rhs ∧ lhs.row = none) ∨ (rhs.Lacks lhs ∧ rhs.row = none) ∨
    ∃ name, lhs.row = some (.var name) ∧ rhs.row = some (.var name)

/-- How many rows are there to take in what is left over between the records: none if they have
the same labels. -/
def rowsToFill (lhs rhs : Application Term) : Nat :=
  if lhs.fields.keys = rhs.fields.keys then 0 else (lhs.row.toList ++ rhs.row.toList).length

end Application

section Alignment

variable (lhs rhs : Application Term) (supply : FreshSupply)

/-- The rows take in what is left over unless it has nowhere to go. -/
theorem not_isAbsorbed_between_iff :
    ¬ (Leftover.between lhs rhs).isAbsorbed lhs.row rhs.row = true ↔ lhs.Unabsorbable rhs := by
  rw [Leftover.between_eq, Application.Unabsorbable, Application.lacks_iff, Application.lacks_iff]
  match lhsRow : lhs.row, rhsRow : rhs.row with
  | none, none => simp [Leftover.isAbsorbed, Leftover.isEmpty, Decidable.imp_iff_not_or, or_comm]
  | some (.var left), some (.var right) => simpa [Leftover.isAbsorbed] using eq_comm
  | some (.app left), some right => simp [Leftover.isAbsorbed]
  | some (.var left), some (.app right) => simp [Leftover.isAbsorbed]
  | some left, none => cases left <;> simp [Leftover.isAbsorbed]
  | none, some right => cases right <;> simp [Leftover.isAbsorbed]

/-- Records cannot be aligned exactly if their labels differ and what is left over has nowhere
to go, or nothing extends the rows. -/
theorem exists_align_eq_error_iff (extension : Option RowExtension) :
    (∃ leftover later, align extension lhs rhs supply = (.error leftover, later)) ↔
      lhs.fields.keys ≠ rhs.fields.keys ∧ (extension = none ∨ lhs.Unabsorbable rhs) := by
  rw [← not_isAbsorbed_between_iff, ne_eq, ← Leftover.isEmpty_between_iff]
  constructor
  · rintro ⟨leftover, later, misaligned⟩
    refine ⟨uneven_of_align misaligned, ?_⟩
    cases extension with
    | none => exact Or.inl rfl
    | some extension =>
      right
      intro absorbed
      rw [align_of_absorbed extension (uneven_of_align misaligned) absorbed _ rfl] at misaligned
      cases misaligned
  · rintro ⟨uneven, stuck⟩
    exact ⟨_, _, align_of_stuck uneven stuck⟩

/-- Without a row extension, or with one that draws new row variables, an alignment draws an index
for each row to fill. -/
theorem supply_of_align (draw : FreshSupply → Nat × FreshSupply) {lhs rhs : Application Term}
    {supply later : FreshSupply} {extension : Option RowExtension} {equations : List Equation}
    (drawing : extension = none ∨ extension = some (RowExtension.withRowBy draw))
    (success : align extension lhs rhs supply = (.ok equations, later)) :
    later = supply.afterBy draw (lhs.rowsToFill rhs) := by
  rw [Application.rowsToFill]
  by_cases labels : lhs.fields.keys = rhs.fields.keys
  · rw [align_of_level extension ((Leftover.isEmpty_between_iff lhs rhs).mpr labels)] at success
    cases success
    rw [if_pos labels]
    rfl
  · rw [if_neg labels]
    cases alignedBy_of_align draw extension lhs rhs supply later equations drawing success with
    | level same => exact absurd same labels
    | fillLhs row lhsOpen rhsClosed _ => simp [lhsOpen, rhsClosed]
    | fillRhs row lhsClosed rhsOpen _ => simp [lhsClosed, rhsOpen]
    | extended first second firstRow secondRow sides firstOpen secondOpen _ =>
      rcases sides with ⟨rfl, rfl⟩ | ⟨rfl, rfl⟩
      · simp [firstOpen, secondOpen]
      · simp [firstOpen, secondOpen]

/-- Within machine words the supply is the one after as many indices as there are rows to fill, if
there is room for them; else it has started over at zero. -/
theorem next_of_align {lhs rhs : Application Term} {supply later : FreshSupply}
    {extension : Option RowExtension} {equations : List Equation}
    (standard : extension = none ∨ extension = some RowExtension.withWordRow)
    (inWord : supply.next < UInt64.size)
    (success : align extension lhs rhs supply = (.ok equations, later)) :
    later.next < UInt64.size ∧
    (supply.next + lhs.rowsToFill rhs < UInt64.size →
      later.next = supply.next + lhs.rowsToFill rhs) ∧
    (UInt64.size ≤ supply.next + lhs.rowsToFill rhs →
      later.next + UInt64.size = supply.next + lhs.rowsToFill rhs) := by
  have few : lhs.rowsToFill rhs ≤ 2 := by
    rw [Application.rowsToFill]
    cases lhs.row <;> cases rhs.row <;> split <;> simp
  have next : later.next = (supply.next + lhs.rowsToFill rhs) % UInt64.size := by
    rw [supply_of_align FreshSupply.drawInWord standard success,
      supply.afterBy_drawInWord inWord]
  refine ⟨next ▸ Nat.mod_lt _ (by decide), ?_, ?_⟩
  · intro room
    rw [next, Nat.mod_eq_of_lt room]
  · intro beyond
    -- Two indices are fewer than a machine has words, so the supply starts over once at most.
    have fewerThanWords : 2 < UInt64.size := by decide
    have once : supply.next + lhs.rowsToFill rhs - UInt64.size < UInt64.size := by omega
    rw [next, Nat.mod_eq_sub_mod beyond, Nat.mod_eq_of_lt once, Nat.sub_add_cancel beyond]

end Alignment

/-- What two applications with as many subterms come down to besides these: an equation for
each label that both records have, equations that fill rows, and equations for tails. -/
structure Application.Breakdown (lhs rhs : Application Term) (common : NameMap Equation)
    (fillings tails : List Equation) : Prop where
  /-- A label is given the two values that the records have for it. -/
  get?_common (label : Name) (equation : Equation) : common.get? label = some equation ↔
    lhs.fields.get? label = some equation.lhs ∧ rhs.fields.get? label = some equation.rhs
  /-- With the same labels no row is filled, and the rows are equated if there are two. -/
  level : lhs.fields.keys = rhs.fields.keys →
    fillings = [] ∧ tails = rowEquations lhs.row rhs.row
  /-- With other labels every row is filled, and the tails of the fillings are equated if there
  are two. -/
  uneven : lhs.fields.keys ≠ rhs.fields.keys →
    (fillings.map Equation.rhs).Perm (lhs.row.toList ++ rhs.row.toList) ∧
      tails = tailEquations (fillings.filterMap fun filling => filling.lhs.row?)

/-- Every filling is equated with its row. -/
theorem map_rhs_synthesize (extension : RowExtension) (fillings : List Filling)
    (supply : FreshSupply) :
    (synthesize extension fillings supply).equations.map Equation.rhs =
      fillings.map Filling.row := by
  induction fillings generalizing supply with
  | nil => rfl
  | cons filling rest inductionHypothesis =>
    simp only [synthesize]
    split <;> simp [inductionHypothesis]

/-- The tails are the rows of the terms made. -/
theorem tails_synthesize (extension : RowExtension) (fillings : List Filling)
    (supply : FreshSupply) :
    (synthesize extension fillings supply).tails =
      (synthesize extension fillings supply).equations.filterMap fun made => made.lhs.row? := by
  have dropped (term : Term) : term.dropRow.row? = none := by cases term <;> rfl
  induction fillings generalizing supply with
  | nil => rfl
  | cons filling rest inductionHypothesis =>
    simp only [synthesize]
    split
    · simp [inductionHypothesis, dropped]
    · generalize extension filling.record filling.labels supply = result
      obtain ⟨made, remaining⟩ := result
      cases row : made.row? <;> simp [inductionHypothesis, row]

/-- The rows that are filled are those of the two records. -/
theorem perm_map_row_between (lhs rhs : Application Term) (leftover : Leftover) :
    ((Filling.between lhs rhs leftover).map Filling.row).Perm
      (lhs.row.toList ++ rhs.row.toList) := by
  unfold Filling.between
  split
  · next lhsRow rhsRow inLhs inRhs =>
    rw [inLhs, inRhs, Filling.inOrder]
    split
    · exact .refl _
    · exact .swap _ _ _
  · next lhsRow inLhs inRhs => simp [inLhs, inRhs]
  · next rhsRow inLhs inRhs => simp [inLhs, inRhs]
  · next inLhs inRhs => simp [inLhs, inRhs]

/-- Aligned records come down to their common fields, then fillings, then tails. -/
theorem exists_breakdown_of_align {extension : Option RowExtension} {lhs rhs : Application Term}
    {supply later : FreshSupply} {equations : List Equation}
    (aligned : align extension lhs rhs supply = (.ok equations, later)) :
    ∃ common fillings tails, lhs.Breakdown rhs common fillings tails ∧
      equations = common.values ++ fillings ++ tails := by
  let common : NameMap Equation :=
    (lhs.fields.join rhs.fields.get?).map fun pair => ⟨pair.1, pair.2⟩
  have values : common.values = commonFields lhs rhs := by
    rw [SortedMap.values_map, commonFields_eq_values]
  have get?_common (label : Name) (equation : Equation) : common.get? label = some equation ↔
      lhs.fields.get? label = some equation.lhs ∧ rhs.fields.get? label = some equation.rhs := by
    obtain ⟨left, right⟩ := equation
    simp only [common, SortedMap.get?_map, SortedMap.get?_join]
    cases lhs.fields.get? label <;> cases rhs.fields.get? label <;> simp
  by_cases level : (Leftover.between lhs rhs).isEmpty = true
  · have labels := (Leftover.isEmpty_between_iff lhs rhs).mp level
    rw [align_of_level extension level] at aligned
    cases aligned
    refine ⟨common, [], rowEquations lhs.row rhs.row,
      ⟨get?_common, fun _ => ⟨rfl, rfl⟩, fun different => absurd labels different⟩, ?_⟩
    rw [values, List.append_nil]
  · have labels : lhs.fields.keys ≠ rhs.fields.keys :=
      fun same => level ((Leftover.isEmpty_between_iff lhs rhs).mpr same)
    by_cases stuck : extension = none ∨
        ¬ (Leftover.between lhs rhs).isAbsorbed lhs.row rhs.row = true
    · rw [align_of_stuck level stuck] at aligned
      cases aligned
    · obtain ⟨present, absorbed⟩ := not_or.mp stuck
      obtain ⟨extension, rfl⟩ := Option.ne_none_iff_exists'.mp present
      let fillings := Filling.between lhs rhs (Leftover.between lhs rhs)
      obtain ⟨synthesis, made⟩ : ∃ synthesis, synthesize extension fillings supply = synthesis :=
        ⟨_, rfl⟩
      rw [align_of_absorbed extension level (Decidable.not_not.mp absorbed) synthesis made]
        at aligned
      cases aligned
      have rows : (synthesis.equations.map Equation.rhs).Perm
          (lhs.row.toList ++ rhs.row.toList) := by
        rw [← made, map_rhs_synthesize]
        exact perm_map_row_between lhs rhs _
      have tails : synthesis.tails =
          synthesis.equations.filterMap fun filling => filling.lhs.row? := by
        rw [← made, tails_synthesize]
      refine ⟨common, synthesis.equations, tailEquations synthesis.tails,
        ⟨get?_common, fun same => absurd same labels, fun _ => ⟨rows, ?_⟩⟩, ?_⟩
      · rw [tails]
      · rw [values]

namespace Engine

/-- Two applications with the same functor and as many subterms come down to their subterms in
pairs and what aligns their records; if nothing does, they are refused with the fields that each
has beyond the other, and the store and the supply are left as they were. -/
theorem applicationMove_cases (engine : Engine) (top : Equation) (lhs rhs : Application Term)
    (functors : lhs.functor = rhs.functor) (arities : lhs.subterms.length = rhs.subterms.length) :
    (∃ aligned supply, align engine.extension lhs rhs engine.supply = (.ok aligned, supply) ∧
      engine.applicationMove top lhs rhs =
        .decomposed (List.zipWith Equation.mk lhs.subterms rhs.subterms ++ aligned) supply) ∨
    ((∃ leftover later, align engine.extension lhs rhs engine.supply = (.error leftover, later)) ∧
      engine.applicationMove top lhs rhs =
        .refused (.mismatched (.unmatchedLabels (lhs.beyond rhs) (rhs.beyond lhs)) top)
          engine.store engine.supply) := by
  rcases outcome : align engine.extension lhs rhs engine.supply with ⟨leftover | aligned, supply⟩
  · refine Or.inr ⟨⟨leftover, supply, rfl⟩, ?_⟩
    obtain ⟨rfl, rfl⟩ := eq_of_align_error outcome
    simp only [applicationMove, ne_eq, functors, arities, not_true_eq_false, if_false, outcome,
      Leftover.between_eq]
  · refine Or.inl ⟨aligned, supply, rfl, ?_⟩
    simp only [applicationMove, ne_eq, functors, arities, not_true_eq_false, if_false, outcome]

/-- Two applications with the same functor and as many subterms are decomposed, or refused because
of their labels. The supply is a machine word, any of them; the row extension is the one that
draws new row variables from it, or there is none.

If the applications are decomposed, and not with the same labels and a row on one side alone, then
every assignment that makes the sides of each equation equal, new row variables included, makes
the applications equal. They are refused exactly if their labels differ and nothing extends the
rows or what is left over has nowhere to go; then the failure has the fields of each record whose
labels the other lacks, the store and the supply are left as they were, and a run records the
failure and changes nothing else of its engine. A decomposition draws one index for each row if
the labels differ, and none if they are the same. The supply advances by as many if the machine
words have room for them. Past the last word it starts over at zero, and what is said about
assignments holds of the tails drawn on both sides of it; a machine that traps the overflow does
not answer there. -/
theorem decomposition_reflects_unifiers (engine : Engine) (top : Equation)
    (lhs rhs : Application Term) (functors : lhs.functor = rhs.functor)
    (arities : lhs.subterms.length = rhs.subterms.length)
    (standard : engine.extension = none ∨ engine.extension = some RowExtension.withWordRow)
    (inWord : engine.supply.next < UInt64.size) :
    (∀ equations supply, engine.applicationMove top lhs rhs = .decomposed equations supply →
      ¬ Equation.HasLoneRow ⟨.app lhs, .app rhs⟩ →
      ∀ assignment : Assignment, assignment.Unifies equations →
        (Term.app lhs).subst assignment = (Term.app rhs).subst assignment) ∧
    ((∃ failure store supply,
        engine.applicationMove top lhs rhs = .refused failure store supply) ↔
      lhs.fields.keys ≠ rhs.fields.keys ∧
        (engine.extension = none ∨ lhs.Unabsorbable rhs)) ∧
    (∀ failure store supply,
      engine.applicationMove top lhs rhs = .refused failure store supply →
      (∃ lhsOnly rhsOnly, failure = .mismatched (.unmatchedLabels lhsOnly rhsOnly) top ∧
        (∀ label value, lhsOnly.get? label = some value ↔
          lhs.fields.get? label = some value ∧ rhs.fields.get? label = none) ∧
        ∀ label value, rhsOnly.get? label = some value ↔
          rhs.fields.get? label = some value ∧ lhs.fields.get? label = none) ∧
      store = engine.store ∧ supply = engine.supply ∧
      ∀ (run : Run) (goal : Goal) (rest : List Goal), run.engine = engine →
        (run.after goal rest (engine.applicationMove top lhs rhs)).engine =
          { engine with failure := some failure }) ∧
    ((∃ equations supply, engine.applicationMove top lhs rhs = .decomposed equations supply) ↔
      ¬ ∃ failure store supply,
        engine.applicationMove top lhs rhs = .refused failure store supply) ∧
    ∀ equations supply, engine.applicationMove top lhs rhs = .decomposed equations supply →
      supply.next < UInt64.size ∧
      (engine.supply.next + lhs.rowsToFill rhs < UInt64.size →
        supply.next = engine.supply.next + lhs.rowsToFill rhs) ∧
      (UInt64.size ≤ engine.supply.next + lhs.rowsToFill rhs →
        supply.next + UInt64.size = engine.supply.next + lhs.rowsToFill rhs) := by
  have blocked := exists_align_eq_error_iff lhs rhs engine.supply engine.extension
  rcases engine.applicationMove_cases top lhs rhs functors arities with
    ⟨aligned, supply, success, move⟩ | ⟨misaligned, move⟩
  · have aligns : ¬ ∃ leftover later,
        align engine.extension lhs rhs engine.supply = (.error leftover, later) := by
      rintro ⟨leftover, later, misaligned⟩
      cases success.symm.trans misaligned
    have unrefused : ¬ ∃ failure store supply,
        engine.applicationMove top lhs rhs = .refused failure store supply := by
      rintro ⟨failure, store, later, refused⟩
      exact nomatch move.symm.trans refused
    refine ⟨?_, iff_of_false unrefused ((not_congr blocked).mp aligns), ?_,
      iff_of_true ⟨_, _, move⟩ unrefused, ?_⟩
    · intro equations later decomposed paired assignment unified
      cases move.symm.trans decomposed
      obtain ⟨subterms, records⟩ := Assignment.Unifies.append_iff.mp unified
      exact decomposesSoundly_of_paired FreshSupply.drawInWord engine.extension _ standard paired
        lhs rhs engine.supply supply aligned assignment rfl functors arities success subterms
        records
    · intro failure store later refused
      exact absurd ⟨failure, store, later, refused⟩ unrefused
    · intro equations later decomposed
      cases move.symm.trans decomposed
      exact next_of_align standard inWord success
  · have undecomposed : ¬ ∃ equations supply,
        engine.applicationMove top lhs rhs = .decomposed equations supply := by
      rintro ⟨equations, supply, decomposed⟩
      exact nomatch move.symm.trans decomposed
    refine ⟨?_, iff_of_true ⟨_, _, _, move⟩ (blocked.mp misaligned), ?_,
      iff_of_false undecomposed (not_not_intro ⟨_, _, _, move⟩), ?_⟩
    · intro equations supply decomposed
      exact absurd ⟨equations, supply, decomposed⟩ undecomposed
    · intro failure store supply refused
      cases move.symm.trans refused
      refine ⟨⟨_, _, rfl, lhs.get?_beyond_eq_some_iff rhs, rhs.get?_beyond_eq_some_iff lhs⟩,
        rfl, rfl, ?_⟩
      rintro run goal rest rfl
      rw [move]
      rfl
    · intro equations supply decomposed
      exact absurd ⟨equations, supply, decomposed⟩ undecomposed

/-- A box with one field and a row. -/
def openBox (label value : String) (row : Name) : Application Term :=
  ⟨.symbol "Box", [], .ofList [(.symbol label, .var (.symbol value))], some (.var row)⟩

/-- `Box(width: w | r)`. -/
def leftBox : Application Term := openBox "width" "w" (.symbol "r")

/-- `Box(depth: d | s)`. -/
def rightBox : Application Term := openBox "depth" "d" (.symbol "s")

/-- An engine without bindings that draws its tails from the given machine word on. -/
def wordEngine (next : Nat) : Engine :=
  { boxEngine with extension := some RowExtension.withWordRow, supply := ⟨next⟩ }

/-- The last machine word. -/
def lastWord : Nat := UInt64.size - 1

/-- What the open boxes come down to when their tails have the given indices. -/
def boxEquations (first second : Nat) : List Equation :=
  [⟨.app (openBox "depth" "d" (.fresh first)), .var (.symbol "r")⟩,
    ⟨.app (openBox "width" "w" (.fresh second)), .var (.symbol "s")⟩,
    ⟨.var (.fresh first), .var (.fresh second)⟩]

/-- Both rows and all new tails stand for `Box(depth: Unit, width: Unit)`, which has the labels of
either box. -/
def overlapping : Assignment :=
  let unit := Term.app (.ofSubterms (.symbol "Unit") [])
  let filled := Term.app ⟨.symbol "Box", [],
    .ofList [(.symbol "depth", unit), (.symbol "width", unit)], none⟩
  .ofMap (.ofList [(.symbol "r", filled), (.symbol "s", filled), (.fresh 0, filled),
    (.fresh 1, filled), (.fresh lastWord, filled)])

/-- The open boxes come down to one equation for each row, in the order of the rows, and one for the
new tails. At the last machine word the second tail has index zero, and the next index is one. What
unifies the equations unifies the boxes, though it overrides the field of each. Without a row
extension the boxes are refused, and no index is drawn. -/
theorem decomposition_reflects_unifiers_open_boxes :
    (wordEngine 0).applicationMove ⟨.app leftBox, .app rightBox⟩ leftBox rightBox =
      .decomposed (boxEquations 0 1) ⟨2⟩ ∧
    (wordEngine lastWord).applicationMove ⟨.app leftBox, .app rightBox⟩ leftBox rightBox =
      .decomposed (boxEquations lastWord 0) ⟨1⟩ ∧
    1 + UInt64.size = lastWord + leftBox.rowsToFill rightBox ∧
    overlapping.Unifies (boxEquations lastWord 0) ∧
    (Term.app leftBox).subst overlapping = (Term.app rightBox).subst overlapping ∧
    ∃ failure, { wordEngine lastWord with extension := none }.applicationMove
      ⟨.app leftBox, .app rightBox⟩ leftBox rightBox = .refused failure .empty ⟨lastWord⟩ := by
  have unified : overlapping.Unifies (boxEquations lastWord 0) := by
    intro equation member
    revert equation
    decide +kernel
  obtain ⟨reflects, -, -, -, counts⟩ := decomposition_reflects_unifiers (wordEngine lastWord)
    ⟨.app leftBox, .app rightBox⟩ leftBox rightBox rfl rfl (Or.inr rfl) (by decide)
  obtain ⟨-, -, beyond⟩ := counts (boxEquations lastWord 0) ⟨1⟩ rfl
  obtain ⟨-, refuses, leaves, -⟩ := decomposition_reflects_unifiers
    { wordEngine lastWord with extension := none } ⟨.app leftBox, .app rightBox⟩ leftBox rightBox
    rfl rfl (Or.inl rfl) (by decide)
  refine ⟨rfl, rfl, beyond (by decide +kernel), unified, ?_, ?_⟩
  · exact reflects _ _ rfl (by decide +kernel) overlapping unified
  · obtain ⟨failure, store, supply, refused⟩ := refuses.mpr ⟨by decide +kernel, Or.inl rfl⟩
    obtain ⟨-, rfl, rfl, -⟩ := leaves failure store supply refused
    exact ⟨failure, refused⟩

end Engine

end RowUnification
