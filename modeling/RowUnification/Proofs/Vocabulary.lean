import RowUnification.Proofs.Records

/-!
# The names in a term

A name stands for a variable, a functor or a label. The three are listed apart, because a
statement about the written or the JSON form of terms may depend on what a name stands for;
`names` has them all. Each list is gathered in the same way, and one lemma says what it has
for an application: what the application itself contributes and what its parts have.

The numbered names below an index are those that a supply at this index has handed out; the
names that fit a machine word are those below the number of its values.
-/

namespace RowUnification

/-- Symbols are below every index; a numbered name is if its index is smaller. -/
def Name.IsBelow (bound : Nat) : Name → Prop
  | symbol _ => True
  | fresh index => index < bound

/-- Whether a name is below an index can be decided. -/
instance (bound : Nat) : DecidablePred (Name.IsBelow bound)
  | .symbol _ => .isTrue trivial
  | .fresh index => inferInstanceAs (Decidable (index < bound))

/-- A name below an index is below every larger one. -/
theorem Name.IsBelow.mono {name : Name} {bound larger : Nat} (below : name.IsBelow bound)
    (least : bound ≤ larger) : name.IsBelow larger := by
  cases name with
  | symbol text => trivial
  | fresh index => exact Nat.lt_of_lt_of_le below least

namespace Term

/-- What variables contribute and what applications do by their functors and labels, over all
depths. -/
def gather (ofVariable : Name → List Name) (ofApplication : Name → List Name → List Name) :
    Term → List Name :=
  fold ofVariable fun parts =>
    ofApplication parts.functor parts.fields.keys ++ parts.children.flatten

/-- The functors of a term, as often as they occur. -/
def functors : Term → List Name := gather (fun _ => []) fun functor _ => [functor]

/-- The labels of a term, as often as they occur. -/
def labels : Term → List Name := gather (fun _ => []) fun _ labels => labels

/-- The variables, functors and labels of a term, as often as they occur. -/
def names : Term → List Name := gather (fun name => [name]) fun functor labels => functor :: labels

/-- An application has what it contributes itself and what its parts have. -/
theorem mem_gather_app (ofVariable : Name → List Name)
    (ofApplication : Name → List Name → List Name) (parts : Application Term) (name : Name) :
    name ∈ (app parts).gather ofVariable ofApplication ↔
      name ∈ ofApplication parts.functor parts.fields.keys ∨
        ∃ child ∈ parts.children, name ∈ child.gather ofVariable ofApplication := by
  have keys : (parts.map (gather ofVariable ofApplication)).fields.keys = parts.fields.keys :=
    SortedMap.keys_map _ parts.fields
  have unfolded : (app parts).gather ofVariable ofApplication =
      ofApplication parts.functor parts.fields.keys ++
        parts.children.flatMap (gather ofVariable ofApplication) := by
    rw [List.flatMap_def, ← Application.children_map, ← keys]
    exact fold_app _ _ parts
  rw [unfolded, List.mem_append, List.mem_flatMap]

/-- What a part has, the application has. -/
theorem gather_of_child {ofVariable : Name → List Name}
    {ofApplication : Name → List Name → List Name} {parts : Application Term} {child : Term}
    (member : child ∈ parts.children) {name : Name}
    (inside : name ∈ child.gather ofVariable ofApplication) :
    name ∈ (app parts).gather ofVariable ofApplication :=
  (mem_gather_app _ _ parts name).mpr (Or.inr ⟨child, member, inside⟩)

end Term

end RowUnification
