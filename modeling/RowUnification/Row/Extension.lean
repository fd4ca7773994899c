import RowUnification.FreshSupply
import RowUnification.Term.Basic

/-!
# Row extensions

When two records have different labels, the row of one has to take in the fields
that only the other has. A row extension makes the term that the row is to equal.
It sees the record with the fields, the labels that are missing on the other
side, and the supply that new tails come from.
-/

namespace RowUnification

/-- Makes the term for a row from a record and the labels of it that the row lacks. The term and
the supply afterwards depend on nothing else: a host's extension that keeps a state of its own from
one call to the next is not described here. -/
abbrev RowExtension : Type := Application Term → NameSet → FreshSupply → Term × FreshSupply

namespace RowExtension

/-- The selected fields of a record under its functor, with the given row. -/
def excerpt (record : Application Term) (labels : NameSet) (row : Option Term) : Term :=
  .app ⟨record.functor, [], record.fields.keep labels.contains, row⟩

/-- The selected fields and, as the row, the variable of an index drawn in the given way. -/
def withRowBy (draw : FreshSupply → Nat × FreshSupply) : RowExtension :=
  fun record labels supply =>
    let (index, remaining) := draw supply
    (excerpt record labels (some (.var (.fresh index))), remaining)

/-- The selected fields and a new variable as the row. -/
def withNewRow : RowExtension := withRowBy FreshSupply.draw

/-- The selected fields and, as the row, the variable of the next machine word. -/
def withWordRow : RowExtension := withRowBy FreshSupply.drawInWord

end RowExtension

end RowUnification
