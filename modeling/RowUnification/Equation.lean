import RowUnification.Term.Order

/-!
# Equations
-/

namespace RowUnification

/-- Two terms that are to be made equal. -/
structure Equation where
  /-- The left side. -/
  lhs : Term
  /-- The right side. -/
  rhs : Term
deriving DecidableEq

end RowUnification
