/-!
# Supplies of fresh indices

A supply hands out indices in ascending order. A supply is a value: two copies of it hand
out the same indices from then on.

There are two ways of drawing from it. `drawInWord` keeps the supply in a machine word: the
last word is still handed out, and then counting starts over at zero, unless the machine
traps the overflow and hands out nothing. `draw` counts without end and so never hands out
an index twice. An engine draws in this way: its supply begins at zero, and only after as many
tails as there are machine words would the two ways part.
-/

namespace RowUnification

/-- A supply of the indices from `next` on. -/
structure FreshSupply where
  /-- The first index not handed out. -/
  next : Nat := 0
deriving DecidableEq

namespace FreshSupply

/-- Supplies are ordered by the index that they hand out next. -/
instance : Ord FreshSupply := ⟨fun left right => compare left.next right.next⟩

/-- The next index, and the supply without it. -/
def draw (supply : FreshSupply) : Nat × FreshSupply := (supply.next, ⟨supply.next + 1⟩)

/-- The next index, and the supply as a machine word holds it afterwards. -/
def drawInWord (supply : FreshSupply) : Nat × FreshSupply :=
  (supply.next, ⟨(supply.next + 1) % UInt64.size⟩)

end FreshSupply

end RowUnification
