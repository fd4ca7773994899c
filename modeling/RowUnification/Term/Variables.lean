import RowUnification.Term.Basic

/-!
# The variables of a term

Two traversals keep the terms still to be searched in a list: the head is taken
off, and the parts of an application take its place. The depth of a term is then
a matter of the list's length alone. Each step removes a variable or a functor,
so the sizes of the listed terms add up to less, which is why the traversals end.

`Term.occurrences` reads the variables off the structure of a term.
-/

namespace RowUnification.Term

/-- The variables of a term from left to right, as often as they occur. -/
def occurrences : Term → List Name :=
  fold (fun name => [name]) fun parts => parts.children.flatten

theorem totalSize_rest_lt (term : Term) (rest : List Term) :
    totalSize rest < totalSize (term :: rest) := by
  have positive : 0 < term.size := size_pos term
  rw [totalSize_cons]
  omega

theorem totalSize_children_lt (parts : Application Term) (rest : List Term) :
    totalSize (parts.children ++ rest) < totalSize (app parts :: rest) := by
  rw [totalSize_append, totalSize_cons, size_app]
  omega

/-- Whether a variable occurs in one of the terms still to be searched. -/
def occursAmong (name : Name) : List Term → Bool
  | [] => false
  | var other :: rest => if other = name then true else occursAmong name rest
  | app parts :: rest => occursAmong name (parts.children ++ rest)
termination_by pending => totalSize pending
decreasing_by
  · exact totalSize_rest_lt _ rest
  · exact totalSize_children_lt parts rest

/-- Whether a variable occurs in a term: as the term itself or in a subterm, a
field or a row at any depth. -/
def occurs (name : Name) (term : Term) : Bool := occursAmong name [term]

/-- Adds the variables of the terms still to be searched to those found. -/
def collect (found : NameSet) : List Term → NameSet
  | [] => found
  | var name :: rest => collect (found.add name) rest
  | app parts :: rest => collect found (parts.children ++ rest)
termination_by pending => totalSize pending
decreasing_by
  · exact totalSize_rest_lt _ rest
  · exact totalSize_children_lt parts rest

/-- The set of variables that occur in a term. -/
def variableSet (term : Term) : NameSet := collect .nil [term]

end RowUnification.Term
