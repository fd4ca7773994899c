import RowUnification.Proofs.Records
import RowUnification.Row.Alignment

/-!
# What aligning two records yields

Without a row extension, or with one that draws the new row variables from the
supply, two records are aligned in one of four ways. With the same labels, the common fields
and, where both are present, the rows are equated. With different labels and one
open record, its row is equated with the closed record of the fields it lacks.
With two open records, each row is equated with the fields that only the other
record has and a tail of its own, and the two tails are equated.

`AlignedBy` lists the ways with their equations, for tails drawn in any way, and
`Aligned` for the way in which an engine draws. The two extended rows come in the
order of their variables, so either record may be the first one; the tails are
drawn in that order. Records that are not aligned leave the supply alone.

`Assignment.Unifies` says that an assignment makes every equation of a list equal.
-/

namespace RowUnification

/-- The assignment makes the sides of every equation equal. -/
def Assignment.Unifies (assignment : Assignment) (equations : List Equation) : Prop :=
  ∀ equation ∈ equations, equation.lhs.subst assignment = equation.rhs.subst assignment

namespace Assignment.Unifies

variable {assignment : Assignment} {first second : List Equation}

/-- Two lists are unified together exactly if each is. -/
theorem append_iff : assignment.Unifies (first ++ second) ↔
    assignment.Unifies first ∧ assignment.Unifies second := by
  simp only [Unifies, List.mem_append, or_imp, forall_and]

/-- An equation before a list is unified on its own. -/
theorem cons_iff {equation : Equation} : assignment.Unifies (equation :: second) ↔
    equation.lhs.subst assignment = equation.rhs.subst assignment ∧
      assignment.Unifies second := by
  simp only [Unifies, List.forall_mem_cons]

end Assignment.Unifies

namespace Application

/-- The fields of a record whose labels another record does not have. -/
def beyond (record other : Application Term) : NameMap Term :=
  record.fields.keep fun label => !other.fields.contains label

/-- The fields that only this record has, under its functor and with the given row. -/
def surplus (record other : Application Term) (row : Option Term) : Term :=
  .app ⟨record.functor, [], record.beyond other, row⟩

/-- A label beyond another record is a label that the other record lacks. -/
theorem get?_beyond (record other : Application Term) (label : Name) :
    (record.beyond other).get? label =
      if (other.fields.get? label).isSome then none else record.fields.get? label := by
  rw [beyond, SortedMap.get?_keep, SortedMap.contains]
  cases other.fields.get? label <;> rfl

/-- A field is beyond another record exactly if the other record lacks its label. -/
theorem get?_beyond_eq_some_iff (record other : Application Term) (label : Name) (value : Term) :
    (record.beyond other).get? label = some value ↔
      record.fields.get? label = some value ∧ other.fields.get? label = none := by
  rw [get?_beyond]
  cases other.fields.get? label <;> simp

/-- No field lies beyond a record that has all the labels. -/
theorem beyond_isEmpty_iff (record other : Application Term) :
    (record.beyond other).isEmpty = true ↔
      ∀ label, record.fields.contains label = true → other.fields.contains label = true := by
  simp only [SortedMap.isEmpty_iff, get?_beyond, SortedMap.contains]
  refine forall_congr' fun label => ?_
  cases record.fields.get? label <;> cases other.fields.get? label <;> simp

/-- The excerpt of a record that a leftover asks for holds the fields beyond the other. -/
theorem excerpt_beyond (record other : Application Term) (row : Option Term) :
    RowExtension.excerpt record (record.beyond other).keySet row = record.surplus other row := by
  rw [RowExtension.excerpt, beyond, SortedMap.keep_contains_keySet]
  rfl

end Application

/-- What is left over on each side lies beyond the other side. -/
theorem Leftover.between_eq (lhs rhs : Application Term) :
    Leftover.between lhs rhs = ⟨lhs.beyond rhs, rhs.beyond lhs⟩ := rfl

/-- No field is left over exactly if the labels are the same. -/
theorem Leftover.isEmpty_between_iff (lhs rhs : Application Term) :
    (Leftover.between lhs rhs).isEmpty = true ↔ lhs.fields.keys = rhs.fields.keys := by
  change ((lhs.beyond rhs).isEmpty && (rhs.beyond lhs).isEmpty) = true ↔ _
  rw [Bool.and_eq_true, Application.beyond_isEmpty_iff, Application.beyond_isEmpty_iff,
    SortedMap.keys_eq_iff]
  constructor
  · rintro ⟨inRight, inLeft⟩ label
    exact Bool.eq_iff_iff.mpr ⟨inRight label, inLeft label⟩
  · intro same
    exact ⟨fun label => (same label).symm ▸ id, fun label => (same label) ▸ id⟩

section Outcomes

variable {lhs rhs : Application Term} {supply : FreshSupply}

/-- Records without leftover fields are aligned by their common fields and rows. -/
theorem align_of_level (extension : Option RowExtension)
    (level : (Leftover.between lhs rhs).isEmpty = true) :
    align extension lhs rhs supply =
      (.ok (commonFields lhs rhs ++ rowEquations lhs.row rhs.row), supply) := by
  simp only [align, if_pos level]

/-- Leftover fields stay without a row extension or where the rows cannot take them in. -/
theorem align_of_stuck {extension : Option RowExtension}
    (uneven : ¬ (Leftover.between lhs rhs).isEmpty = true)
    (stuck : extension = none ∨ ¬ (Leftover.between lhs rhs).isAbsorbed lhs.row rhs.row = true) :
    align extension lhs rhs supply = (.error (Leftover.between lhs rhs), supply) := by
  cases extension with
  | none => simp only [align, if_neg uneven]
  | some extension =>
    have unabsorbed := stuck.resolve_left nofun
    simp only [align, if_neg uneven, if_neg unabsorbed]

/-- Leftover fields that the rows can take in are filled into them. -/
theorem align_of_absorbed (extension : RowExtension)
    (uneven : ¬ (Leftover.between lhs rhs).isEmpty = true)
    (absorbed : (Leftover.between lhs rhs).isAbsorbed lhs.row rhs.row = true)
    (synthesis : Synthesis)
    (made : synthesize extension (Filling.between lhs rhs (Leftover.between lhs rhs)) supply =
      synthesis) :
    align (some extension) lhs rhs supply =
      (.ok (commonFields lhs rhs ++ synthesis.equations ++ tailEquations synthesis.tails),
        synthesis.supply) := by
  simp only [align, if_neg uneven, if_pos absorbed, made]

/-- Records that cannot be aligned have different labels. -/
theorem uneven_of_align {extension : Option RowExtension} {leftover : Leftover}
    {later : FreshSupply} (misaligned : align extension lhs rhs supply = (.error leftover, later)) :
    ¬ (Leftover.between lhs rhs).isEmpty = true := by
  intro level
  rw [align_of_level extension level] at misaligned
  cases misaligned

/-- Records that cannot be aligned report the fields that they do not share, and the supply is
what it was. -/
theorem eq_of_align_error {extension : Option RowExtension} {leftover : Leftover}
    {later : FreshSupply} (misaligned : align extension lhs rhs supply = (.error leftover, later)) :
    leftover = Leftover.between lhs rhs ∧ later = supply := by
  have uneven := uneven_of_align misaligned
  have stays (stuck : extension = none ∨
      ¬ (Leftover.between lhs rhs).isAbsorbed lhs.row rhs.row = true) :
      leftover = Leftover.between lhs rhs ∧ later = supply := by
    rw [align_of_stuck uneven stuck] at misaligned
    cases misaligned
    exact ⟨rfl, rfl⟩
  cases extension with
  | none => exact stays (Or.inl rfl)
  | some extension =>
    by_cases absorbed : (Leftover.between lhs rhs).isAbsorbed lhs.row rhs.row = true
    · rw [align_of_absorbed extension uneven absorbed _ rfl] at misaligned
      cases misaligned
    · exact stays (Or.inr absorbed)

end Outcomes

/-- A common field is a label that both records give a value. -/
theorem mem_commonFields_iff (lhs rhs : Application Term) (equation : Equation) :
    equation ∈ commonFields lhs rhs ↔
      ∃ label, lhs.fields.get? label = some equation.lhs ∧
        rhs.fields.get? label = some equation.rhs := by
  simp only [commonFields, List.mem_filterMap, Option.map_eq_some_iff, Prod.exists,
    SortedMap.mem_toList_iff]
  constructor
  · rintro ⟨label, left, inLeft, right, inRight, rfl⟩
    exact ⟨label, inLeft, inRight⟩
  · rintro ⟨label, inLeft, inRight⟩
    exact ⟨label, equation.lhs, inLeft, equation.rhs, inRight, rfl⟩

/-- The equation with its sides exchanged. -/
def Equation.swap (equation : Equation) : Equation := ⟨equation.rhs, equation.lhs⟩

/-- The equations of common fields are the values of the joined fields. -/
theorem commonFields_eq_values (lhs rhs : Application Term) : commonFields lhs rhs =
    (lhs.fields.join rhs.fields.get?).values.map fun pair => ⟨pair.1, pair.2⟩ := by
  rw [SortedMap.values_join, List.map_filterMap]
  simp only [Option.map_map]
  rfl

/-- Common fields are exchanged with their records and keep the order of their labels. -/
theorem commonFields_swap (lhs rhs : Application Term) :
    commonFields rhs lhs = (commonFields lhs rhs).map Equation.swap := by
  rw [commonFields_eq_values, commonFields_eq_values, ← SortedMap.join_swap, SortedMap.values_map,
    List.map_map, List.map_map]
  rfl

namespace FreshSupply

/-- The name that a supply makes when it has drawn as many indices as given. -/
def name (supply : FreshSupply) (drawn : Nat) : Name := .fresh (supply.next + drawn)

/-- The variable of that name. -/
def tail (supply : FreshSupply) (drawn : Nat) : Term := .var (supply.name drawn)

/-- The supply after drawing as many indices as given. -/
def after (supply : FreshSupply) (drawn : Nat) : FreshSupply := ⟨supply.next + drawn⟩

section DrawnBy

variable (draw : FreshSupply → Nat × FreshSupply) (supply : FreshSupply)

/-- The supply after drawing as many indices as given, each in the given way. -/
def afterBy : Nat → FreshSupply
  | 0 => supply
  | drawn + 1 => (draw (afterBy drawn)).2

/-- The variable of the index drawn in the given way after as many others. -/
def tailBy (drawn : Nat) : Term := .var (.fresh (draw (supply.afterBy draw drawn)).1)

/-- Drawing counts on. -/
theorem afterBy_draw : supply.afterBy FreshSupply.draw = supply.after := by
  funext drawn
  induction drawn with
  | zero => rfl
  | succ drawn inductionHypothesis => rw [afterBy, inductionHypothesis]; rfl

/-- The tails are numbered on from the supply. -/
theorem tailBy_draw : supply.tailBy FreshSupply.draw = supply.tail := by
  funext drawn
  rw [tailBy, afterBy_draw]
  rfl

/-- Drawing within machine words counts on as well, and starts over at zero after the last. -/
theorem afterBy_drawInWord (inWord : supply.next < UInt64.size) (drawn : Nat) :
    supply.afterBy FreshSupply.drawInWord drawn = ⟨(supply.next + drawn) % UInt64.size⟩ := by
  induction drawn with
  | zero => rw [Nat.add_zero, Nat.mod_eq_of_lt inWord]; rfl
  | succ drawn inductionHypothesis =>
    rw [afterBy, inductionHypothesis, drawInWord, Nat.mod_add_mod, Nat.add_assoc]

end DrawnBy

end FreshSupply

/-- The equations that extend the rows of two open records, the second one first, and
equate the tails. -/
def Application.extensionEquations (first second : Application Term) (firstRow secondRow : Term)
    (tail : Nat → Term) : List Equation :=
  [⟨first.surplus second (some (tail 0)), secondRow⟩,
    ⟨second.surplus first (some (tail 1)), firstRow⟩, ⟨tail 0, tail 1⟩]

/-- The ways of aligning two records, each with its equations and the supply afterwards, when
tails and supplies go by the number of indices drawn before. -/
inductive AlignedBy (lhs rhs : Application Term) (tail : Nat → Term) (after : Nat → FreshSupply) :
    List Equation → FreshSupply → Prop
  /-- The labels are the same. -/
  | level (labels : lhs.fields.keys = rhs.fields.keys) :
      AlignedBy lhs rhs tail after (commonFields lhs rhs ++ rowEquations lhs.row rhs.row) (after 0)
  /-- The left row takes in all that the closed right record has beyond the left one. -/
  | fillLhs (row : Term) (lhsOpen : lhs.row = some row) (rhsClosed : rhs.row = none)
      (contained : (lhs.beyond rhs).isEmpty = true) :
      AlignedBy lhs rhs tail after (commonFields lhs rhs ++ [⟨rhs.surplus lhs none, row⟩])
        (after 1)
  /-- The right row takes in all that the closed left record has beyond the right one. -/
  | fillRhs (row : Term) (lhsClosed : lhs.row = none) (rhsOpen : rhs.row = some row)
      (contained : (rhs.beyond lhs).isEmpty = true) :
      AlignedBy lhs rhs tail after (commonFields lhs rhs ++ [⟨lhs.surplus rhs none, row⟩])
        (after 1)
  /-- Both rows are extended, in either order. -/
  | extended (first second : Application Term) (firstRow secondRow : Term)
      (sides : (first = lhs ∧ second = rhs) ∨ (first = rhs ∧ second = lhs))
      (firstOpen : first.row = some firstRow) (secondOpen : second.row = some secondRow)
      (distinct : ∀ name, firstRow = .var name → secondRow ≠ .var name) :
      AlignedBy lhs rhs tail after
        (commonFields lhs rhs ++ first.extensionEquations second firstRow secondRow tail)
        (after 2)

/-- The ways of aligning two records with the tails that an engine draws from the supply. -/
abbrev Aligned (lhs rhs : Application Term) (supply : FreshSupply) :
    List Equation → FreshSupply → Prop :=
  AlignedBy lhs rhs supply.tail supply.after

/-- No alignment gives indices back. -/
theorem Aligned.next_le {lhs rhs : Application Term} {supply later : FreshSupply}
    {equations : List Equation} (aligned : Aligned lhs rhs supply equations later) :
    supply.next ≤ later.next := by
  cases aligned with
  | level _ => exact Nat.le_refl _
  | fillLhs _ _ _ _ => exact Nat.le_add_right _ _
  | fillRhs _ _ _ _ => exact Nat.le_add_right _ _
  | extended _ _ _ _ _ _ _ _ => exact Nat.le_add_right _ _

section Drawn

variable (draw : FreshSupply → Nat × FreshSupply)

/-- Filling the rows of two open records makes both terms and equates their tails. -/
theorem synthesize_pair (first second : Filling) (supply : FreshSupply)
    (firstOpen : first.record.row.isNone = false) (secondOpen : second.record.row.isNone = false) :
    synthesize (RowExtension.withRowBy draw) [first, second] supply =
      ⟨[⟨RowExtension.excerpt first.record first.labels (some (supply.tailBy draw 0)), first.row⟩,
          ⟨RowExtension.excerpt second.record second.labels (some (supply.tailBy draw 1)),
            second.row⟩],
        [supply.tailBy draw 0, supply.tailBy draw 1], supply.afterBy draw 2⟩ := by
  simp only [synthesize, firstOpen, secondOpen]
  rfl

/-- Filling a row from a closed record makes a closed term. -/
theorem synthesize_closed (filling : Filling) (supply : FreshSupply)
    (closed : filling.record.row.isNone = true) :
    synthesize (RowExtension.withRowBy draw) [filling] supply =
      ⟨[⟨RowExtension.excerpt filling.record filling.labels none, filling.row⟩], [],
        supply.afterBy draw 1⟩ := by
  simp only [synthesize, closed]
  rfl

/-- With a row extension that draws new row variables, rows that can take in the leftover fields
are filled in one of the listed ways. -/
theorem alignedBy_of_absorbed (lhs rhs : Application Term) (supply : FreshSupply)
    (synthesis : Synthesis)
    (absorbed : (Leftover.between lhs rhs).isAbsorbed lhs.row rhs.row = true)
    (made : synthesize (RowExtension.withRowBy draw)
      (Filling.between lhs rhs (Leftover.between lhs rhs)) supply = synthesis) :
    AlignedBy lhs rhs (supply.tailBy draw) (supply.afterBy draw)
      (commonFields lhs rhs ++ synthesis.equations ++ tailEquations synthesis.tails)
      synthesis.supply := by
  rw [Leftover.between_eq] at absorbed made
  subst made
  match lhsRow : lhs.row, rhsRow : rhs.row with
  | none, none =>
    rw [lhsRow, rhsRow] at absorbed
    have labels := (Leftover.isEmpty_between_iff lhs rhs).mp absorbed
    have way : AlignedBy lhs rhs (supply.tailBy draw) (supply.afterBy draw) _ _ := .level labels
    simpa [Filling.between, synthesize, tailEquations, rowEquations, lhsRow, rhsRow,
      FreshSupply.afterBy] using way
  | some row, none =>
    rw [lhsRow, rhsRow] at absorbed
    have contained : (lhs.beyond rhs).isEmpty = true := by cases row <;> exact absorbed
    simp only [Filling.between, lhsRow, rhsRow, Application.excerpt_beyond,
      synthesize_closed draw ⟨rhs, _, row⟩ supply (by rw [rhsRow]; rfl)]
    have way : AlignedBy lhs rhs (supply.tailBy draw) (supply.afterBy draw) _ _ :=
      .fillLhs row lhsRow rhsRow contained
    simpa [tailEquations] using way
  | none, some row =>
    rw [lhsRow, rhsRow] at absorbed
    have contained : (rhs.beyond lhs).isEmpty = true := by cases row <;> exact absorbed
    simp only [Filling.between, lhsRow, rhsRow, Application.excerpt_beyond,
      synthesize_closed draw ⟨lhs, _, row⟩ supply (by rw [lhsRow]; rfl)]
    have way : AlignedBy lhs rhs (supply.tailBy draw) (supply.afterBy draw) _ _ :=
      .fillRhs row lhsRow rhsRow contained
    simpa [tailEquations] using way
  | some left, some right =>
    rw [lhsRow, rhsRow] at absorbed
    have distinct (name : Name) (leftVar : left = .var name) : right ≠ .var name := by
      rintro rfl
      subst leftVar
      simp [Leftover.isAbsorbed] at absorbed
    simp only [Filling.between, lhsRow, rhsRow, Filling.inOrder]
    split
    · rw [synthesize_pair draw _ _ supply (by simp [rhsRow]) (by simp [lhsRow])]
      have way : AlignedBy lhs rhs (supply.tailBy draw) (supply.afterBy draw) _ _ :=
        .extended rhs lhs right left (Or.inr ⟨rfl, rfl⟩) rhsRow lhsRow
          fun name rightVar leftVar => distinct name leftVar rightVar
      simpa [tailEquations, Application.extensionEquations, Application.excerpt_beyond] using way
    · rw [synthesize_pair draw _ _ supply (by simp [lhsRow]) (by simp [rhsRow])]
      have way : AlignedBy lhs rhs (supply.tailBy draw) (supply.afterBy draw) _ _ :=
        .extended lhs rhs left right (Or.inl ⟨rfl, rfl⟩) lhsRow rhsRow distinct
      simpa [tailEquations, Application.extensionEquations, Application.excerpt_beyond] using way

/-- Every alignment without a row extension, or with one that draws new row variables, is one of
the listed ways. -/
theorem alignedBy_of_align (extension : Option RowExtension) (lhs rhs : Application Term)
    (supply later : FreshSupply) (equations : List Equation)
    (drawing : extension = none ∨ extension = some (RowExtension.withRowBy draw))
    (success : align extension lhs rhs supply = (.ok equations, later)) :
    AlignedBy lhs rhs (supply.tailBy draw) (supply.afterBy draw) equations later := by
  by_cases level : (Leftover.between lhs rhs).isEmpty = true
  · rw [align_of_level extension level] at success
    cases success
    exact .level ((Leftover.isEmpty_between_iff lhs rhs).mp level)
  · by_cases absorbed : (Leftover.between lhs rhs).isAbsorbed lhs.row rhs.row = true
    · rcases drawing with rfl | rfl
      · rw [align_of_stuck level (Or.inl rfl)] at success
        cases success
      · rw [align_of_absorbed _ level absorbed _ rfl] at success
        cases success
        exact alignedBy_of_absorbed draw lhs rhs supply _ absorbed rfl
    · rw [align_of_stuck level (Or.inr absorbed)] at success
      cases success

end Drawn

/-- Filling a row first leaves to the others the supply after one index. -/
theorem supply_synthesize_cons (filling : Filling) (rest : List Filling) (supply : FreshSupply) :
    (synthesize RowExtension.withNewRow (filling :: rest) supply).supply =
      (synthesize RowExtension.withNewRow rest supply.draw.2).supply := by
  simp only [synthesize]
  split <;> rfl

/-- Filling rows gives no index back. -/
theorem next_le_synthesize (fillings : List Filling) (supply : FreshSupply) :
    supply.next ≤ (synthesize RowExtension.withNewRow fillings supply).supply.next := by
  induction fillings generalizing supply with
  | nil => exact Nat.le_refl _
  | cons filling rest inductionHypothesis =>
    rw [supply_synthesize_cons]
    exact Nat.le_trans (Nat.le_succ _) (inductionHypothesis supply.draw.2)

/-- Every alignment without a row extension, or with the one that makes new row variables,
is one of the listed ways. -/
theorem aligned_of_align (extension : Option RowExtension) (lhs rhs : Application Term)
    (supply later : FreshSupply) (equations : List Equation)
    (standard : extension = none ∨ extension = some RowExtension.withNewRow)
    (success : align extension lhs rhs supply = (.ok equations, later)) :
    Aligned lhs rhs supply equations later := by
  rw [Aligned, ← FreshSupply.tailBy_draw, ← FreshSupply.afterBy_draw]
  exact alignedBy_of_align FreshSupply.draw extension lhs rhs supply later equations standard
    success

end RowUnification
