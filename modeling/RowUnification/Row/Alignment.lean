import RowUnification.Equation
import RowUnification.Row.Extension

/-!
# Aligning two records

Two applications with the same functor agree on their fields if the fields under
common labels agree and each row takes in what only the other side has. If no
field is left over, the rows themselves have to agree, where both are present.
Otherwise each row gets an equation with the term that the row extension makes of
the other record; a term made of a closed record is closed too. If both records
are open, the two tails made on the way are the same further fields, so they are
equated as well.

The fields left over are a mismatch if there is no row extension, if the side
that lacks them is closed, or if both records have the same variable as their
row: it would have to take in different fields on the two sides.

The equations for the rows come in the order of the row variables, so exchanging
the records changes neither their order nor which tail is made first.
-/

namespace RowUnification

/-- The fields that only one of two records has. -/
structure Leftover where
  /-- The fields whose labels only the left record has. -/
  lhsOnly : NameMap Term
  /-- The fields whose labels only the right record has. -/
  rhsOnly : NameMap Term
deriving DecidableEq

namespace Leftover

/-- The fields that the two records do not share. -/
def between (lhs rhs : Application Term) : Leftover where
  lhsOnly := lhs.fields.keep fun label => !rhs.fields.contains label
  rhsOnly := rhs.fields.keep fun label => !lhs.fields.contains label

/-- Whether the two records have the same labels. -/
def isEmpty (leftover : Leftover) : Bool := leftover.lhsOnly.isEmpty && leftover.rhsOnly.isEmpty

/-- Whether the rows can take in the fields: fields of one side need a row on the other,
and the rows must not be the same variable. -/
def isAbsorbed (leftover : Leftover) (lhsRow rhsRow : Option Term) : Bool :=
  match lhsRow, rhsRow with
  | some (.var lhs), some (.var rhs) => lhs ≠ rhs
  | some _, some _ => true
  | some _, none => leftover.lhsOnly.isEmpty
  | none, some _ => leftover.rhsOnly.isEmpty
  | none, none => leftover.isEmpty

end Leftover

/-- A row that has to take in fields of the record on the other side. -/
structure Filling where
  /-- The record with the fields. -/
  record : Application Term
  /-- The labels of the fields. -/
  labels : NameSet
  /-- The row that takes them in. -/
  row : Term

namespace Filling

/-- Fillings go by the name of the row variable; a row that is no variable comes first. -/
def precedes (first second : Filling) : Bool :=
  match first.row.variableName?, second.row.variableName? with
  | none, some _ => true
  | some left, some right => left < right
  | _, none => false

/-- Two fillings in order; of two that go by the same name the first stays first. -/
def inOrder (first second : Filling) : List Filling :=
  if second.precedes first then [second, first] else [first, second]

/-- The rows of two records, each to be filled from the other record. -/
def between (lhs rhs : Application Term) (leftover : Leftover) : List Filling :=
  match lhs.row, rhs.row with
  | some lhsRow, some rhsRow =>
    inOrder ⟨lhs, leftover.lhsOnly.keySet, rhsRow⟩ ⟨rhs, leftover.rhsOnly.keySet, lhsRow⟩
  | some lhsRow, none => [⟨rhs, leftover.rhsOnly.keySet, lhsRow⟩]
  | none, some rhsRow => [⟨lhs, leftover.lhsOnly.keySet, rhsRow⟩]
  | none, none => []

end Filling

/-- The term without the row at its root. -/
def Term.dropRow : Term → Term
  | .var name => .var name
  | .app parts => .app { parts with row := none }

/-- What filling rows has produced. -/
structure Synthesis where
  /-- The equations of made terms with rows. -/
  equations : List Equation
  /-- The rows of the terms made of open records. -/
  tails : List Term
  /-- The supply afterwards. -/
  supply : FreshSupply

/-- Makes a term for each row in turn. A closed record admits no further fields, so the
term made of it is closed and brings no tail. -/
def synthesize (extension : RowExtension) : List Filling → FreshSupply → Synthesis
  | [], supply => ⟨[], [], supply⟩
  | filling :: rest, supply =>
    let (made, remaining) := extension filling.record filling.labels supply
    let later := synthesize extension rest remaining
    if filling.record.row.isNone then
      { later with equations := ⟨made.dropRow, filling.row⟩ :: later.equations }
    else
      { later with
        equations := ⟨made, filling.row⟩ :: later.equations
        tails := made.row?.toList ++ later.tails }

/-- Two tails are equated; there is nothing to equate with fewer. -/
def tailEquations : List Term → List Equation
  | [first, second] => [⟨first, second⟩]
  | _ => []

/-- The fields under common labels are equated, by label. -/
def commonFields (lhs rhs : Application Term) : List Equation :=
  lhs.fields.toList.filterMap fun field => (rhs.fields.get? field.1).map (⟨field.2, ·⟩)

/-- The rows are equated if both records are open. -/
def rowEquations : Option Term → Option Term → List Equation
  | some lhs, some rhs => [⟨lhs, rhs⟩]
  | _, _ => []

/-- The equations under which two records with the same functor agree on fields and rows,
or the fields that cannot be taken in, and in either case the supply afterwards. -/
def align (extension : Option RowExtension) (lhs rhs : Application Term)
    (supply : FreshSupply) : Except Leftover (List Equation) × FreshSupply :=
  let leftover := Leftover.between lhs rhs
  if leftover.isEmpty then
    (.ok (commonFields lhs rhs ++ rowEquations lhs.row rhs.row), supply)
  else
    match extension with
    | none => (.error leftover, supply)
    | some extension =>
      if leftover.isAbsorbed lhs.row rhs.row then
        let synthesis := synthesize extension (Filling.between lhs rhs leftover) supply
        (.ok (commonFields lhs rhs ++ synthesis.equations ++ tailEquations synthesis.tails),
          synthesis.supply)
      else (.error leftover, supply)

end RowUnification
